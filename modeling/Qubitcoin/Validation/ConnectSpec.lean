import Qubitcoin.Validation.CheckBlock
import Qubitcoin.Validation.Connect
import Qubitcoin.Coins.Replay

/-! What `connect_block` does to the visible coins. -/

open qubitcoin primitives script transaction block coins params check validation_state

namespace qubitcoin.validation

def input_coins (coins : CoinsMap) (tx : Transaction) : List (Option Coin) :=
  if tx.is_coinbase then [] else tx.vin.map fun input => coins input.prevout

theorem have_any_coin_reads (outpoints : List OutPoint) :
    ∀ view : CoinsViewCache, view.ReadsTo (have_any_coin outpoints view).2 ∧
      (have_any_coin outpoints view).1 = outpoints.any fun outpoint => (view.visible outpoint).isSome := by
  induction outpoints with
  | nil => exact fun view => ⟨.refl view, rfl⟩
  | cons outpoint rest ih =>
    intro view
    have hreads := view.fetch_coin_reads outpoint
    obtain ⟨hrest, hfound⟩ := ih (view.fetch_coin outpoint).2
    unfold have_any_coin CoinsViewCache.have_coin
    dsimp only
    rw [List.any_cons]
    split
    · next hsome => exact ⟨hreads, by simp [CoinsViewCache.visible, hsome]⟩
    · next hnone =>
      refine ⟨hreads.trans hrest, ?_⟩
      rw [hfound, hreads.visible]
      simp [CoinsViewCache.visible, hnone]

theorem fetch_inputs_reads (inputs : List TxIn) :
    ∀ view : CoinsViewCache, view.ReadsTo (fetch_inputs inputs view).2 ∧
      (fetch_inputs inputs view).1 = inputs.map fun input => view.visible input.prevout := by
  induction inputs with
  | nil => exact fun view => ⟨.refl view, rfl⟩
  | cons input rest ih =>
    intro view
    have hreads := view.fetch_coin_reads input.prevout
    obtain ⟨hrest, hcoins⟩ := ih (view.fetch_coin input.prevout).2
    refine ⟨hreads.trans hrest, ?_⟩
    unfold fetch_inputs
    dsimp only
    rw [hcoins, hreads.visible]
    rfl

theorem spend_inputs_spec (inputs : List TxIn) :
    ∀ {view : CoinsViewCache}, view.Coherent →
      (spend_inputs inputs view).visible = view.visible.spend_all (inputs.map TxIn.prevout) ∧
      (spend_inputs inputs view).Coherent ∧
      ∀ {outpoint}, view.SeesParent outpoint → (spend_inputs inputs view).SeesParent outpoint := by
  induction inputs with
  | nil => exact fun {view} hcoherent => ⟨rfl, hcoherent, id⟩
  | cons input rest ih =>
    intro view hcoherent
    obtain ⟨hvisible, hspent⟩ := hcoherent.spend_coin input.prevout
    obtain ⟨hvisible_rest, hrest, hparent_rest⟩ := ih hspent
    refine ⟨?_, hrest, fun hparent => hparent_rest (hcoherent.spend_coin_sees_parent _ hparent)⟩
    rw [spend_inputs, hvisible_rest, hvisible]
    rfl

theorem spend_inputs_base (inputs : List TxIn) :
    ∀ view : CoinsViewCache, (spend_inputs inputs view).base = view.base := by
  induction inputs with
  | nil => exact fun view => rfl
  | cons input rest ih => exact fun view => (ih _).trans (view.spend_coin_base input.prevout)

def coins_value (coins : List Coin) : Int := (coins.map fun coin => coin.tx_out.value).sum

/-- Input checks pass only when there is an unspent coin for every input, and
    they return the total value. -/
theorem check_input_coins_ok {spend_height : Int} {fetched : List (Option Coin)} :
    ∀ {total_in total : Amount}, check_input_coins spend_height total_in fetched = .ok total →
      ∃ coins : List Coin, fetched = coins.map some ∧
        (∀ coin ∈ coins, coin.is_spent = false ∧ money_range coin.tx_out.value = true) ∧
        total = total_in + coins_value coins ∧ (fetched ≠ [] → money_range total = true) := by
  induction fetched with
  | nil =>
    intro total_in total hcheck
    cases hcheck
    exact ⟨[], rfl, by simp, by simp [coins_value], fun h => absurd rfl h⟩
  | cons head rest ih =>
    intro total_in total hcheck
    cases head with
    | none => cases hcheck
    | some coin =>
      unfold check_input_coins at hcheck
      obtain ⟨_, hspent, hcheck⟩ := bind_eq_ok_iff.mp hcheck
      have hcheck : ∃ sum, sum = total_in + coin.tx_out.value ∧ money_range coin.tx_out.value = true ∧
          money_range sum = true ∧ check_input_coins spend_height sum rest = .ok total := by
        obtain ⟨_, _, hcheck⟩ := bind_eq_ok_iff.mp hcheck
        obtain ⟨_, hrange, hcheck⟩ := bind_eq_ok_iff.mp hcheck
        obtain ⟨sum, hsum, hcheck⟩ := bind_eq_ok_iff.mp hcheck
        obtain ⟨_, htotal, hcheck⟩ := bind_eq_ok_iff.mp hcheck
        exact ⟨sum, (checked_eq_ok.mp hsum).1, require_eq_ok.mp hrange, require_eq_ok.mp htotal, hcheck⟩
      obtain ⟨sum, rfl, hrange, hsum, hcheck⟩ := hcheck
      obtain ⟨coins, rfl, hcoins, htotal, hin_range⟩ := ih hcheck
      refine ⟨coin :: coins, rfl, ?_, ?_, fun _ => ?_⟩
      · intro other hmem
        rcases List.mem_cons.mp hmem with rfl | hmem
        · exact ⟨by simpa using require_eq_ok.mp hspent, hrange⟩
        · exact hcoins other hmem
      · rw [htotal, coins_value, coins_value, List.map_cons, List.sum_cons, add_assoc]
      · by_cases hempty : coins = []
        · subst hempty
          rw [htotal]
          simpa [coins_value] using hsum
        · exact hin_range (by simpa using hempty)

/-- A coin that can be spent at a height: not a coinbase, or one that is deep enough. -/
def Mature (spend_height : Int) (coin : Coin) : Prop :=
  coin.coinbase = true → COINBASE_MATURITY ≤ spend_height - as_i32 coin.height ∧
    IntType.i32.fits (spend_height - as_i32 coin.height)

theorem check_maturity_eq_ok {spend_height : Int} {coin : Coin} :
    check_maturity spend_height coin = .ok () ↔ Mature spend_height coin := by
  unfold check_maturity Mature
  cases coin.coinbase with
  | false => simp
  | true =>
    rw [if_pos rfl, bind_eq_ok_iff]
    constructor
    · rintro ⟨maturity, hmaturity, hrequire⟩ _
      obtain ⟨rfl, hfits⟩ := checked_eq_ok.mp hmaturity
      exact ⟨of_decide_eq_true (require_eq_ok.mp hrequire), hfits⟩
    · intro hmature
      obtain ⟨hdeep, hfits⟩ := hmature rfl
      exact ⟨_, checked_eq_ok.mpr ⟨rfl, hfits⟩, require_eq_ok.mpr (decide_eq_true hdeep)⟩

theorem check_input_coins_mature {spend_height : Int} {coins : List Coin} :
    ∀ {total_in total : Amount}, check_input_coins spend_height total_in (coins.map some) = .ok total →
      ∀ coin ∈ coins, Mature spend_height coin := by
  induction coins with
  | nil => exact fun _ _ hmem => nomatch hmem
  | cons coin rest ih =>
    intro total_in total hcheck other hmem
    rw [List.map_cons, check_input_coins] at hcheck
    obtain ⟨_, _, hcheck⟩ := bind_eq_ok_iff.mp hcheck
    obtain ⟨_, hmature, hcheck⟩ := bind_eq_ok_iff.mp hcheck
    obtain ⟨_, _, hcheck⟩ := bind_eq_ok_iff.mp hcheck
    obtain ⟨_, _, hcheck⟩ := bind_eq_ok_iff.mp hcheck
    obtain ⟨_, _, hcheck⟩ := bind_eq_ok_iff.mp hcheck
    rcases List.mem_cons.mp hmem with rfl | hmem
    · exact check_maturity_eq_ok.mp hmature
    · exact ih hcheck other hmem

theorem check_connect_tx_ok {ctx : ConnectContext} {tx : Transaction} {fetched : List (Option Coin)}
    {totals after : ConnectTotals} (hcoinbase : tx.is_coinbase = false)
    (hcheck : check_connect_tx ctx tx fetched totals = .ok after) :
    ∃ (coins : List Coin) (total_out : Amount), fetched = coins.map some ∧
      (∀ coin ∈ coins, coin.is_spent = false ∧ money_range coin.tx_out.value = true) ∧
      (tx.get_value_out : Except (Failure TxValidationState) Amount) = .ok total_out ∧
      total_out ≤ coins_value coins ∧
      after.total_fees = totals.total_fees + (coins_value coins - total_out) ∧
      money_range after.total_fees = true := by
  unfold check_connect_tx at hcheck
  rw [hcoinbase, if_neg (by simp)] at hcheck
  obtain ⟨fee, hfee, hcheck⟩ := bind_eq_ok_iff.mp hcheck
  obtain ⟨total_fees, hfees, hcheck⟩ := bind_eq_ok_iff.mp hcheck
  obtain ⟨_, hrange, hcheck⟩ := bind_eq_ok_iff.mp hcheck
  obtain ⟨_, _, hcheck⟩ := bind_eq_ok_iff.mp hcheck
  obtain ⟨cost, _, hcheck⟩ := bind_eq_ok_iff.mp hcheck
  cases hcheck
  have hfee := mapError_eq_ok.mp hfee
  unfold check_tx_inputs_with_coins at hfee
  rw [hcoinbase, if_neg (by simp)] at hfee
  obtain ⟨total_in, hin, hfee⟩ := bind_eq_ok_iff.mp hfee
  obtain ⟨total_out, hout, hfee⟩ := bind_eq_ok_iff.mp hfee
  obtain ⟨_, hbelow, hfee⟩ := bind_eq_ok_iff.mp hfee
  obtain ⟨difference, hdifference, hfee⟩ := bind_eq_ok_iff.mp hfee
  obtain ⟨_, _, hfee⟩ := bind_eq_ok_iff.mp hfee
  cases hfee
  obtain ⟨rfl, _⟩ := checked_eq_ok.mp hdifference
  obtain ⟨rfl, _⟩ := checked_eq_ok.mp hfees
  obtain ⟨coins, hcoins, hunspent, rfl, _⟩ := check_input_coins_ok hin
  rw [zero_add] at hbelow hrange ⊢
  exact ⟨coins, total_out, hcoins, hunspent, hout, of_decide_eq_true (require_eq_ok.mp hbelow), rfl,
    require_eq_ok.mp hrange⟩

/-- Every exit of the transaction pass: a failed check leaves the visible map, a
    transaction that passes is spent and added. -/
theorem connect_tx_cases (ctx : ConnectContext) (tx : Transaction) (totals : ConnectTotals)
    (view : CoinsViewCache) :
    (∃ e after, check_connect_tx ctx tx (input_coins view.visible tx) totals = .error e ∧
      connect_tx ctx tx totals view = (.error e, after) ∧ view.ReadsTo after) ∨
    (∃ after_totals read, check_connect_tx ctx tx (input_coins view.visible tx) totals = .ok after_totals ∧
      view.ReadsTo read ∧
      connect_tx ctx tx totals view =
        match add_coins (if tx.is_coinbase then read else spend_inputs tx.vin read) tx (as_u32 ctx.height) false with
        | .error why => (.error (.panic why), if tx.is_coinbase then read else spend_inputs tx.vin read)
        | .ok after => (.ok (after_totals, tx_undo tx (input_coins view.visible tx)), after)) := by
  have hfetch : ∃ read, view.ReadsTo read ∧
      (if tx.is_coinbase then ([], view) else fetch_inputs tx.vin view) = (input_coins view.visible tx, read) := by
    unfold input_coins
    split
    · exact ⟨view, .refl view, rfl⟩
    · obtain ⟨hreads, hcoins⟩ := fetch_inputs_reads tx.vin view
      exact ⟨_, hreads, Prod.ext hcoins rfl⟩
  obtain ⟨read, hreads, hfetched⟩ := hfetch
  unfold connect_tx
  rw [hfetched]
  dsimp only
  cases hcheck : check_connect_tx ctx tx (input_coins view.visible tx) totals with
  | error e => exact .inl ⟨e, read, rfl, rfl, hreads⟩
  | ok after_totals => exact .inr ⟨after_totals, read, rfl, hreads, rfl⟩

theorem connect_tx_checked {ctx : ConnectContext} {tx : Transaction} {totals after_totals : ConnectTotals}
    {undo : List TxUndo} {view after : CoinsViewCache}
    (hconnect : connect_tx ctx tx totals view = (.ok (after_totals, undo), after)) :
    check_connect_tx ctx tx (input_coins view.visible tx) totals = .ok after_totals ∧
      undo = tx_undo tx (input_coins view.visible tx) := by
  obtain ⟨e, other, _, heq, _⟩ | ⟨other_totals, read, hcheck, _, heq⟩ := connect_tx_cases ctx tx totals view
  · rw [heq] at hconnect
    cases hconnect
  · rw [heq] at hconnect
    split at hconnect
    · cases hconnect
    · cases hconnect
      exact ⟨hcheck, rfl⟩

theorem connect_tx_ok {ctx : ConnectContext} {tx : Transaction} {totals after_totals : ConnectTotals}
    {undo : List TxUndo} {view after : CoinsViewCache} (hcoherent : view.Coherent)
    (hconnect : connect_tx ctx tx totals view = (.ok (after_totals, undo), after)) :
    after.visible = view.visible.apply_tx (as_u32 ctx.height) tx ∧ after.base = view.base ∧
      (∀ {outpoint}, view.SeesParent outpoint → after.SeesParent outpoint) ∧
      ((∀ entry ∈ outpoints tx, entry.2.script_pubkey.is_unspendable = false → view.SeesParent entry.1) →
        after.Coherent) := by
  obtain ⟨e, other, _, heq, _⟩ | ⟨other_totals, read, _, hreads, heq⟩ :=
    connect_tx_cases ctx tx totals view
  · rw [heq] at hconnect
    cases hconnect
  · have hread := hreads.coherent hcoherent
    have hspend : ∃ spent, (if tx.is_coinbase then read else spend_inputs tx.vin read) = spent ∧
        spent.visible = (if tx.is_coinbase then view.visible
          else view.visible.spend_all (tx.vin.map TxIn.prevout)) ∧
        spent.base = view.base ∧ spent.Coherent ∧
        ∀ {outpoint}, view.SeesParent outpoint → spent.SeesParent outpoint := by
      refine ⟨_, rfl, ?_⟩
      split
      · exact ⟨hreads.visible, hreads.base, hread, hreads.sees_parent⟩
      · obtain ⟨hvisible, hspent, hparent⟩ := spend_inputs_spec tx.vin hread
        rw [hvisible, hreads.visible, spend_inputs_base, hreads.base]
        exact ⟨rfl, rfl, hspent, fun h => hparent (hreads.sees_parent h)⟩
    obtain ⟨spent, hspent_eq, hvisible, hbase, hspent, hparent⟩ := hspend
    rw [heq, hspent_eq] at hconnect
    split at hconnect
    · cases hconnect
    · next added hadd =>
      cases hconnect
      obtain ⟨hadd_visible, hadd_base, hadd_parent, hadd_coherent⟩ := add_outputs_spec hadd
      refine ⟨?_, hadd_base.trans hbase, fun h => hadd_parent (hparent h), ?_⟩
      · rw [hadd_visible, hvisible]
        rfl
      · exact fun hsees => hadd_coherent hspent fun entry hmem hspendable =>
          hparent (hsees entry hmem hspendable)

theorem connect_txs_cons_ok {ctx : ConnectContext} {tx : Transaction} {rest : List Transaction}
    {totals after_totals : ConnectTotals} {undo : List TxUndo} {view after : CoinsViewCache} :
    connect_txs ctx (tx :: rest) totals view = (.ok (after_totals, undo), after) ↔
      ∃ mid_totals first mid others, connect_tx ctx tx totals view = (.ok (mid_totals, first), mid) ∧
        connect_txs ctx rest mid_totals mid = (.ok (after_totals, others), after) ∧ undo = first ++ others := by
  constructor
  · intro hconnect
    unfold connect_txs at hconnect
    split at hconnect
    · cases hconnect
    · next mid_totals first mid hfirst =>
      split at hconnect
      · cases hconnect
      · next last_totals others last hothers =>
        cases hconnect
        exact ⟨mid_totals, first, mid, others, hfirst, hothers, rfl⟩
  · rintro ⟨mid_totals, first, mid, others, hfirst, hothers, rfl⟩
    unfold connect_txs
    rw [hfirst]
    dsimp only
    rw [hothers]

variable (env : Env)

theorem check_bip30_spec (block : Block) (height : Int) (params : ConsensusParams) (view : CoinsViewCache) :
    view.ReadsTo (check_bip30 env block height params view).2 ∧
      (check_bip30 env block height params view).1 =
        (enforce_bip30 params height (block.block_hash env.hash256) &&
          (new_outpoints block.vtx).any fun outpoint => (view.visible outpoint).isSome) := by
  unfold check_bip30
  split
  · next henforce =>
    obtain ⟨hreads, hfound⟩ := have_any_coin_reads (new_outpoints block.vtx) view
    exact ⟨hreads, by rw [hfound, henforce, Bool.true_and]⟩
  · next henforce => exact ⟨.refl view, by simp [henforce]⟩

/-- The view that the transaction loop starts from: after the BIP30 check and the
    prefetch. -/
def prepared_view (block : Block) (height : Int) (params : ConsensusParams) (view : CoinsViewCache) :
    CoinsViewCache :=
  (check_bip30 env block height params view).2.prefetch_coins (all_input_outpoints block.vtx)

theorem prepared_view_reads (block : Block) (height : Int) (params : ConsensusParams) (view : CoinsViewCache) :
    view.ReadsTo (prepared_view env block height params view) :=
  (check_bip30_spec env block height params view).1.trans (CoinsViewCache.prefetch_coins_reads _ _)

/-- Every exit of `connect_block`: the BIP30 refusal, which only reads; a
    transaction that fails; a check that fails after all transactions are
    applied; success. -/
theorem connect_block_cases (block : Block) (height : Int) (view : CoinsViewCache) (params : ConsensusParams)
    (mtp_at_height : Option (Int → Int)) (skip_scripts : Bool) :
    (∃ after, (check_bip30 env block height params view).1 = true ∧ view.ReadsTo after ∧
      connect_block env block height view params mtp_at_height skip_scripts =
        (.error (block_invalid .Consensus "bad-txns-BIP30" "tried to overwrite transaction"), after)) ∨
    ((check_bip30 env block height params view).1 = false ∧
      ((∃ e after, connect_txs (connect_context env block height params mtp_at_height) block.vtx ⟨0, 0⟩
          (prepared_view env block height params view) = (.error e, after) ∧
        connect_block env block height view params mtp_at_height skip_scripts = (.error e, after)) ∨
      (∃ totals undo after,
        connect_txs (connect_context env block height params mtp_at_height) block.vtx ⟨0, 0⟩
          (prepared_view env block height params view) = (.ok (totals, undo), after) ∧
        ((∃ e, check_connected env block height params skip_scripts
            (connect_context env block height params mtp_at_height).script_flags totals undo = .error e ∧
          connect_block env block height view params mtp_at_height skip_scripts = (.error e, after)) ∨
        (check_connected env block height params skip_scripts
            (connect_context env block height params mtp_at_height).script_flags totals undo = .ok () ∧
          connect_block env block height view params mtp_at_height skip_scripts = (.ok ⟨undo⟩, after)))))) := by
  have hbip30 := (check_bip30_spec env block height params view).1
  unfold connect_block prepared_view
  generalize check_bip30 env block height params view = checked at hbip30 ⊢
  obtain ⟨found, checked⟩ := checked
  cases found with
  | true => exact .inl ⟨checked, rfl, hbip30, rfl⟩
  | false =>
    refine .inr ⟨rfl, ?_⟩
    dsimp only
    cases hloop : connect_txs (connect_context env block height params mtp_at_height) block.vtx ⟨0, 0⟩
        (checked.prefetch_coins (all_input_outpoints block.vtx)) with
    | mk result after =>
      cases result with
      | error e => exact .inl ⟨e, after, rfl, rfl⟩
      | ok result =>
        obtain ⟨totals, undo⟩ := result
        refine .inr ⟨totals, undo, after, rfl, ?_⟩
        dsimp only
        cases hcheck : check_connected env block height params skip_scripts
            (connect_context env block height params mtp_at_height).script_flags totals undo with
        | error e => exact .inl ⟨e, rfl, rfl⟩
        | ok _ => exact .inr ⟨rfl, rfl⟩

/-- A block that is connected passed the BIP30 check, the transaction loop and
    the checks after it. -/
theorem connect_block_ok {block : Block} {height : Int} {view after : CoinsViewCache}
    {params : ConsensusParams} {mtp_at_height : Option (Int → Int)} {skip_scripts : Bool} {undo : BlockUndo}
    (hconnect : connect_block env block height view params mtp_at_height skip_scripts = (.ok undo, after)) :
    ∃ totals, (check_bip30 env block height params view).1 = false ∧
      connect_txs (connect_context env block height params mtp_at_height) block.vtx ⟨0, 0⟩
        (prepared_view env block height params view) = (.ok (totals, undo.tx_undo), after) ∧
      check_connected env block height params skip_scripts
        (connect_context env block height params mtp_at_height).script_flags totals undo.tx_undo = .ok () := by
  obtain ⟨other, _, _, heq⟩ | ⟨hbip30, hrest⟩ :=
    connect_block_cases env block height view params mtp_at_height skip_scripts
  · rw [heq] at hconnect
    cases hconnect
  · obtain ⟨e, other, _, heq⟩ | ⟨totals, others, other, hloop, hend⟩ := hrest
    · rw [heq] at hconnect
      cases hconnect
    · obtain ⟨e, _, heq⟩ | ⟨hcheck, heq⟩ := hend
      · rw [heq] at hconnect
        cases hconnect
      · rw [heq] at hconnect
        cases hconnect
        exact ⟨totals, hbip30, hloop, hcheck⟩

end qubitcoin.validation

/-! What connecting a block leaves of a coherent view, whether the block is accepted
    or not: an accepted one is applied to the visible map. -/

namespace qubitcoin.validation

/-- No spendable output of a list of transactions is added past an uncached coin of
    the base. -/
def Unshadowed (view : CoinsViewCache) (txs : List Transaction) : Prop :=
  ∀ tx ∈ txs, ∀ entry ∈ outpoints tx, entry.2.script_pubkey.is_unspendable = false → view.SeesParent entry.1

theorem Unshadowed.mono {view after : CoinsViewCache} {txs : List Transaction} (hunshadowed : Unshadowed view txs)
    (hsees : ∀ {outpoint}, view.SeesParent outpoint → after.SeesParent outpoint) : Unshadowed after txs :=
  fun tx hmem entry hentry hspendable => hsees (hunshadowed tx hmem entry hentry hspendable)

theorem Unshadowed.of_empty {view : CoinsViewCache} (hbase : ∀ outpoint, view.base.get_coin outpoint = none)
    (txs : List Transaction) : Unshadowed view txs := fun _ _ _ _ _ _ => hbase _

theorem Unshadowed.of_not_visible {view : CoinsViewCache} {txs : List Transaction}
    (hvisible : ∀ tx ∈ txs, ∀ entry ∈ outpoints tx, view.visible entry.1 = none) : Unshadowed view txs :=
  fun tx hmem entry hentry _ => CoinsViewCache.sees_parent_of_not_visible (hvisible tx hmem entry hentry)

/-- The transaction loop keeps the flag invariant at each of its exits, and applies
    the transactions if it gets to its end. -/
theorem connect_txs_applied {ctx : ConnectContext} {txs : List Transaction} :
    ∀ {totals : ConnectTotals} {view after : CoinsViewCache}
      {result : Except (Failure BlockValidationState) (ConnectTotals × List TxUndo)},
      view.Coherent → Unshadowed view txs → connect_txs ctx txs totals view = (result, after) →
      (∀ why, result ≠ .error (.panic why)) →
      after.Coherent ∧ after.base = view.base ∧
        ∀ connected, result = .ok connected → after.visible = view.visible.apply_txs (as_u32 ctx.height) txs := by
  induction txs with
  | nil =>
    intro totals view after result hcoherent _ hloop _
    cases hloop
    exact ⟨hcoherent, rfl, fun _ _ => rfl⟩
  | cons tx rest ih =>
    intro totals view after result hcoherent hunshadowed hloop hpanic
    unfold connect_txs at hloop
    split at hloop
    · next e failed hfirst =>
      cases hloop
      obtain ⟨other, view', _, heq, hreads⟩ | ⟨after_totals, read, _, _, heq⟩ :=
        connect_tx_cases ctx tx totals view
      · rw [heq] at hfirst
        cases hfirst
        exact ⟨hreads.coherent hcoherent, hreads.base, nofun⟩
      · rw [heq] at hfirst
        split at hfirst
        · cases hfirst
          exact absurd rfl (hpanic _)
        · cases hfirst
    · next mid_totals first mid hfirst =>
      obtain ⟨hvisible, hbase, hsees, hmid⟩ := connect_tx_ok hcoherent hfirst
      have hmid := hmid (hunshadowed tx (by simp))
      have hrest : Unshadowed mid rest :=
        Unshadowed.mono (fun other hmem => hunshadowed other (List.mem_cons_of_mem _ hmem)) hsees
      split at hloop
      · next e failed hfail =>
        cases hloop
        obtain ⟨hafter, hafter_base, _⟩ := ih hmid hrest hfail fun why heq => hpanic why (by cases heq; rfl)
        exact ⟨hafter, hafter_base.trans hbase, nofun⟩
      · next end_totals others done hdone =>
        cases hloop
        obtain ⟨hafter, hafter_base, happlied⟩ := ih hmid hrest hdone nofun
        refine ⟨hafter, hafter_base.trans hbase, fun _ _ => ?_⟩
        rw [happlied _ rfl, hvisible, CoinsMap.apply_txs_cons]

variable (env : Env)

theorem connect_block_applied {block : Block} {height : Int} {view after : CoinsViewCache}
    {params : ConsensusParams} {mtp_at_height : Option (Int → Int)} {skip_scripts : Bool}
    {result : Except (Failure BlockValidationState) BlockUndo} (hcoherent : view.Coherent)
    (hunshadowed : Unshadowed view block.vtx)
    (hconnect : connect_block env block height view params mtp_at_height skip_scripts = (result, after))
    (hpanic : ∀ why, result ≠ .error (.panic why)) :
    after.Coherent ∧ after.base = view.base ∧
      ∀ undo, result = .ok undo → after.visible = view.visible.apply_txs (as_u32 height) block.vtx := by
  have hreads := prepared_view_reads env block height params view
  have hprepared := hreads.coherent hcoherent
  have hunshadowed : Unshadowed (prepared_view env block height params view) block.vtx :=
    hunshadowed.mono hreads.sees_parent
  obtain ⟨read, _, hread, heq⟩ | ⟨_, hrest⟩ :=
    connect_block_cases env block height view params mtp_at_height skip_scripts
  · rw [heq] at hconnect
    cases hconnect
    exact ⟨hread.coherent hcoherent, hread.base, nofun⟩
  · obtain ⟨e, failed, hloop, heq⟩ | ⟨totals, undo, done, hloop, hend⟩ := hrest
    · rw [heq] at hconnect
      cases hconnect
      obtain ⟨hafter, hbase, _⟩ := connect_txs_applied hprepared hunshadowed hloop
        fun why heq => hpanic why (by cases heq; rfl)
      exact ⟨hafter, hbase.trans hreads.base, nofun⟩
    · obtain ⟨hafter, hbase, happlied⟩ := connect_txs_applied hprepared hunshadowed hloop nofun
      obtain ⟨e, _, heq⟩ | ⟨_, heq⟩ := hend
      · rw [heq] at hconnect
        cases hconnect
        exact ⟨hafter, hbase.trans hreads.base, nofun⟩
      · rw [heq] at hconnect
        cases hconnect
        refine ⟨hafter, hbase.trans hreads.base, fun _ _ => ?_⟩
        rw [happlied _ rfl, hreads.visible]
        rfl

end qubitcoin.validation

/-! What `connect_block` answers depends on the visible coins, not on what of them is cached,
    unless it stops the program. -/

namespace qubitcoin.validation

/-- The call does not stop the program. -/
def Returns {A : Type} (result : Except (Failure BlockValidationState) A) : Prop := ∀ why, result ≠ .error (.panic why)

section

variable {left right : CoinsViewCache}

theorem connect_tx_same {ctx : ConnectContext} {tx : Transaction} {totals : ConnectTotals}
    (hvisible : left.visible = right.visible) (hleft : Returns (connect_tx ctx tx totals left).1)
    (hright : Returns (connect_tx ctx tx totals right).1) :
    (connect_tx ctx tx totals left).1 = (connect_tx ctx tx totals right).1 := by
  obtain ⟨e, _, hcheck, heq, _⟩ | ⟨after_totals, read, hcheck, _, heq⟩ := connect_tx_cases ctx tx totals left
  · obtain ⟨other, _, hother, hother_eq, _⟩ | ⟨_, _, hother, _, _⟩ := connect_tx_cases ctx tx totals right
    · rw [← hvisible, hcheck] at hother
      cases hother
      rw [heq, hother_eq]
    · rw [← hvisible, hcheck] at hother
      cases hother
  · obtain ⟨_, _, hother, _, _⟩ | ⟨other_totals, other_read, hother, _, hother_eq⟩ :=
      connect_tx_cases ctx tx totals right
    · rw [← hvisible, hcheck] at hother
      cases hother
    · rw [← hvisible, hcheck] at hother
      cases hother
      rw [heq] at hleft ⊢
      rw [hother_eq] at hright ⊢
      split
      · next why hadd =>
        rw [hadd] at hleft
        exact absurd rfl (hleft why)
      · split
        · next why hadd =>
          rw [hadd] at hright
          exact absurd rfl (hright why)
        · rw [hvisible]

theorem connect_txs_same {ctx : ConnectContext} {txs : List Transaction} : ∀ {totals : ConnectTotals}
    {left right : CoinsViewCache}, left.Coherent → right.Coherent → Unshadowed left txs → Unshadowed right txs →
      left.visible = right.visible → Returns (connect_txs ctx txs totals left).1 →
      Returns (connect_txs ctx txs totals right).1 →
      (connect_txs ctx txs totals left).1 = (connect_txs ctx txs totals right).1 := by
  induction txs with
  | nil =>
    intro _ _ _ _ _ _ _ _ _ _
    rfl
  | cons tx rest ih =>
    intro totals left right hleft hright hleft_new hright_new hvisible hleft_returns hright_returns
    unfold connect_txs at hleft_returns hright_returns ⊢
    have hfirst := @connect_tx_same left right ctx tx totals hvisible
    cases hleft_first : connect_tx ctx tx totals left with
    | mk left_result left_mid =>
      cases hright_first : connect_tx ctx tx totals right with
      | mk right_result right_mid =>
        rw [hleft_first, hright_first] at hfirst
        rw [hleft_first] at hleft_returns
        rw [hright_first] at hright_returns
        have hresults : left_result = right_result := by
          refine hfirst (fun why heq => ?_) fun why heq => ?_
          · subst heq
            exact hleft_returns why rfl
          · subst heq
            exact hright_returns why rfl
        subst hresults
        cases left_result with
        | error e => rfl
        | ok first =>
          obtain ⟨mid_totals, undo⟩ := first
          obtain ⟨hleft_mid, _, hleft_sees, hleft_coherent⟩ := connect_tx_ok hleft hleft_first
          obtain ⟨hright_mid, _, hright_sees, hright_coherent⟩ := connect_tx_ok hright hright_first
          have hmid : left_mid.visible = right_mid.visible := by rw [hleft_mid, hright_mid, hvisible]
          have hrest_left : Unshadowed left_mid rest :=
            Unshadowed.mono (fun other hmem => hleft_new other (List.mem_cons_of_mem _ hmem)) hleft_sees
          have hrest_right : Unshadowed right_mid rest :=
            Unshadowed.mono (fun other hmem => hright_new other (List.mem_cons_of_mem _ hmem)) hright_sees
          have hrest := @ih mid_totals left_mid right_mid (hleft_coherent (hleft_new tx (by simp)))
            (hright_coherent (hright_new tx (by simp))) hrest_left hrest_right hmid
          dsimp only at hleft_returns hright_returns ⊢
          cases hleft_rest : connect_txs ctx rest mid_totals left_mid with
          | mk left_result left_after =>
            cases hright_rest : connect_txs ctx rest mid_totals right_mid with
            | mk right_result right_after =>
              rw [hleft_rest, hright_rest] at hrest
              rw [hleft_rest] at hleft_returns
              rw [hright_rest] at hright_returns
              have hresults : left_result = right_result := by
                refine hrest (fun why heq => ?_) fun why heq => ?_
                · subst heq
                  exact hleft_returns why rfl
                · subst heq
                  exact hright_returns why rfl
              subst hresults
              cases left_result with
              | error e => rfl
              | ok others => rfl

variable (env : Env)

theorem connect_block_same {block : Block} {height : Int} {params : ConsensusParams}
    {mtp_at_height : Option (Int → Int)} {skip_scripts : Bool} (hleft : left.Coherent) (hright : right.Coherent)
    (hleft_new : Unshadowed left block.vtx) (hright_new : Unshadowed right block.vtx)
    (hvisible : left.visible = right.visible)
    (hleft_returns : Returns (connect_block env block height left params mtp_at_height skip_scripts).1)
    (hright_returns : Returns (connect_block env block height right params mtp_at_height skip_scripts).1) :
    (connect_block env block height left params mtp_at_height skip_scripts).1 =
      (connect_block env block height right params mtp_at_height skip_scripts).1 := by
  have hbip30 : (check_bip30 env block height params left).1 = (check_bip30 env block height params right).1 := by
    rw [(check_bip30_spec env block height params left).2, (check_bip30_spec env block height params right).2, hvisible]
  have hleft_reads := prepared_view_reads env block height params left
  have hright_reads := prepared_view_reads env block height params right
  have hprepared : (prepared_view env block height params left).visible =
      (prepared_view env block height params right).visible := by
    rw [hleft_reads.visible, hright_reads.visible, hvisible]
  have hloop := @connect_txs_same (connect_context env block height params mtp_at_height) block.vtx ⟨0, 0⟩ _ _
    (hleft_reads.coherent hleft) (hright_reads.coherent hright) (hleft_new.mono hleft_reads.sees_parent)
    (hright_new.mono hright_reads.sees_parent) hprepared
  obtain ⟨_, hfound, _, heq⟩ | ⟨hfound, hends⟩ :=
    connect_block_cases env block height left params mtp_at_height skip_scripts
  · obtain ⟨_, _, _, hother⟩ | ⟨hother_found, _⟩ :=
      connect_block_cases env block height right params mtp_at_height skip_scripts
    · rw [heq, hother]
    · rw [hbip30, hother_found] at hfound
      cases hfound
  · obtain ⟨_, hother_found, _, _⟩ | ⟨_, hother_ends⟩ :=
      connect_block_cases env block height right params mtp_at_height skip_scripts
    · rw [hbip30, hother_found] at hfound
      cases hfound
    · obtain ⟨e, _, hleft_loop, heq⟩ | ⟨totals, undo, _, hleft_loop, hend⟩ := hends
      · obtain ⟨other, _, hright_loop, hother⟩ | ⟨_, _, _, hright_loop, _⟩ := hother_ends
        · rw [hleft_loop, hright_loop] at hloop
          rw [heq] at hleft_returns ⊢
          rw [hother] at hright_returns ⊢
          cases hloop (fun why heq => hleft_returns why (by cases heq; rfl))
            fun why heq => hright_returns why (by cases heq; rfl)
          rfl
        · rw [hleft_loop, hright_loop] at hloop
          rw [heq] at hleft_returns
          cases hloop (fun why heq => hleft_returns why (by cases heq; rfl)) nofun
      · obtain ⟨other, _, hright_loop, hother⟩ | ⟨_, _, _, hright_loop, hother_end⟩ := hother_ends
        · rw [hleft_loop, hright_loop] at hloop
          rw [hother] at hright_returns
          cases hloop nofun fun why heq => hright_returns why (by cases heq; rfl)
        · rw [hleft_loop, hright_loop] at hloop
          cases hloop nofun nofun
          obtain ⟨e, hcheck, heq⟩ | ⟨hcheck, heq⟩ := hend
          · obtain ⟨other, hother_check, hother⟩ | ⟨hother_check, hother⟩ := hother_end
            · rw [hcheck] at hother_check
              cases hother_check
              rw [heq, hother]
            · rw [hcheck] at hother_check
              cases hother_check
          · obtain ⟨other, hother_check, hother⟩ | ⟨hother_check, hother⟩ := hother_end
            · rw [hcheck] at hother_check
              cases hother_check
            · rw [heq, hother]

end

end qubitcoin.validation
