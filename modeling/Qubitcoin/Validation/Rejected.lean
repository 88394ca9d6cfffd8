import Qubitcoin.Validation.ConnectSpec

/-! When a block that `connect_block` rejects leaves the visible coins as they
    were. -/

open qubitcoin primitives script transaction block coins params check validation_state

namespace qubitcoin.coins

theorem CoinsViewCache.add_coin_lookup_of_ne {self after : CoinsViewCache} {outpoint query : OutPoint}
    {coin : Coin} {possible_overwrite : Bool}
    (hne : coin.tx_out.script_pubkey.is_unspendable = false → query ≠ outpoint)
    (hadd : self.add_coin outpoint coin possible_overwrite = .ok after) :
    after.cache.lookup query = self.cache.lookup query := by
  unfold CoinsViewCache.add_coin at hadd
  split at hadd
  · cases hadd
  · split at hadd
    · cases hadd
      rfl
    · next hspendable =>
      have hne := hne (by simpa using hspendable)
      split at hadd
      · split at hadd
        · cases hadd
        · cases hadd
          exact (lookup_insert_eq ..).trans (if_neg hne)
      · cases hadd
        exact (lookup_insert_eq ..).trans (if_neg hne)

theorem add_outputs_lookup_of_ne {height : UInt32} {is_coinbase : Bool} {query : OutPoint}
    {outputs : List (OutPoint × TxOut)}
    (hne : ∀ entry ∈ outputs, entry.2.script_pubkey.is_unspendable = false → query ≠ entry.1) :
    ∀ {view after : CoinsViewCache}, add_outputs height is_coinbase false outputs view = .ok after →
      after.cache.lookup query = view.cache.lookup query := by
  induction outputs with
  | nil =>
    intro view after hadd
    cases hadd
    rfl
  | cons entry rest ih =>
    obtain ⟨outpoint, output⟩ := entry
    intro view after hadd
    unfold add_outputs at hadd
    simp only [Bool.false_eq_true, if_false] at hadd
    obtain ⟨mid, hmid, hrest⟩ := bind_eq_ok_iff.mp hadd
    rw [ih (fun entry hmem => hne entry (List.mem_cons_of_mem _ hmem)) hrest]
    exact CoinsViewCache.add_coin_lookup_of_ne (hne (outpoint, output) (by simp)) hmid

/-- The base shows no coin under a `FRESH` entry of the outpoint. -/
def CoinsViewCache.FreshAt (view : CoinsViewCache) (outpoint : OutPoint) : Prop :=
  ∀ entry, view.cache.lookup outpoint = some entry → entry.flags.is_fresh = true →
    view.base.get_coin outpoint = none

theorem CoinsViewCache.ReadsTo.fresh_at {view after : CoinsViewCache} (hreads : view.ReadsTo after)
    {outpoint : OutPoint} (hfresh : view.FreshAt outpoint) : after.FreshAt outpoint := by
  intro entry hcache hflag
  rw [hreads.base]
  exact hfresh entry (hreads.fresh hcache hflag) hflag

theorem CoinsViewCache.FreshAt.spend_coin {view : CoinsViewCache} {outpoint : OutPoint}
    (hfresh : view.FreshAt outpoint) : (view.spend_coin outpoint).2.visible outpoint = none := by
  have hreads := view.fetch_coin_reads outpoint
  have hread := hreads.fresh_at hfresh
  have hvisible := congrFun hreads.visible outpoint
  unfold CoinsViewCache.spend_coin CoinsViewCache.spend_cached
  split
  · next hcache => exact hvisible.trans (CoinsViewCache.fetch_coin_not_cached hcache)
  · next entry hcache =>
    split
    · next hspent => rw [CoinsViewCache.visible_of_cached hcache, CoinsCacheEntry.shown, if_pos hspent]
    · rw [CoinsViewCache.visible_eq]
      dsimp only
      cases hflag : entry.flags.is_fresh with
      | true => simp [hread entry hcache hflag]
      | false => simp [CoinsCacheEntry.shown]

theorem CoinsViewCache.spend_coin_hidden {view : CoinsViewCache} {query : OutPoint}
    (hhidden : view.visible query = none) (outpoint : OutPoint) :
    (view.spend_coin outpoint).2.visible query = none := by
  have hread : (view.fetch_coin outpoint).2.visible query = none := by
    rw [(view.fetch_coin_reads outpoint).visible]
    exact hhidden
  unfold CoinsViewCache.spend_coin CoinsViewCache.spend_cached
  split
  · exact hread
  · next entry hcache =>
    split
    · exact hread
    · next hspent =>
      have hne : query ≠ outpoint := by
        rintro rfl
        rw [CoinsViewCache.visible_of_cached hcache, CoinsCacheEntry.shown, if_neg hspent] at hread
        cases hread
      rw [CoinsViewCache.visible_eq] at hread ⊢
      dsimp only
      cases entry.flags.is_fresh with
      | true => simpa [lookup_erase_eq, hne] using hread
      | false => simpa [lookup_insert_eq, hne] using hread

end qubitcoin.coins

namespace qubitcoin.validation

theorem spend_inputs_hidden {query : OutPoint} (inputs : List TxIn) :
    ∀ {view : CoinsViewCache}, view.visible query = none → (spend_inputs inputs view).visible query = none := by
  induction inputs with
  | nil => exact fun hhidden => hhidden
  | cons input rest ih => exact fun hhidden => ih (CoinsViewCache.spend_coin_hidden hhidden input.prevout)

theorem connect_tx_hidden (ctx : ConnectContext) {tx : Transaction} (totals : ConnectTotals)
    {view : CoinsViewCache} {query : OutPoint} (hhash : query.hash ≠ tx.txid)
    (hhidden : view.visible query = none) : (connect_tx ctx tx totals view).2.visible query = none := by
  have hne : ∀ entry ∈ outpoints tx, entry.2.script_pubkey.is_unspendable = false → query ≠ entry.1 :=
    fun entry hmem _ heq => hhash (heq ▸ outpoints_hash hmem)
  obtain ⟨e, after, _, heq, hreads⟩ | ⟨after_totals, read, _, hreads, heq⟩ :=
    connect_tx_cases ctx tx totals view
  · rw [heq, hreads.visible]
    exact hhidden
  · have hread : read.visible query = none := by rwa [hreads.visible]
    have hspent : (if tx.is_coinbase then read else spend_inputs tx.vin read).visible query = none := by
      split
      · exact hread
      · exact spend_inputs_hidden tx.vin hread
    rw [heq]
    split
    · exact hspent
    · next after hadd =>
      have hlookup := add_outputs_lookup_of_ne hne hadd
      have hbase := (add_outputs_spec hadd).2.1
      rw [CoinsViewCache.visible_eq] at hspent ⊢
      rwa [hlookup, hbase]

theorem connect_txs_hidden (ctx : ConnectContext) {query : OutPoint} {txs : List Transaction}
    (hhash : ∀ tx ∈ txs, query.hash ≠ tx.txid) :
    ∀ (totals : ConnectTotals) {view : CoinsViewCache}, view.visible query = none →
      (connect_txs ctx txs totals view).2.visible query = none := by
  induction txs with
  | nil => exact fun _ _ hhidden => hhidden
  | cons tx rest ih =>
    intro totals view hhidden
    have hfirst := connect_tx_hidden ctx totals (hhash tx (by simp)) hhidden
    have hrest := fun tx hmem => hhash tx (List.mem_cons_of_mem _ hmem)
    unfold connect_txs
    split
    · next e after heq => rwa [heq] at hfirst
    · next mid_totals undo mid heq =>
      rw [heq] at hfirst
      have hafter := ih hrest mid_totals hfirst
      split
      · next e after htail => rwa [htail] at hafter
      · next last_totals undos after htail => rwa [htail] at hafter

/-- No transaction of the list makes an output that it or an earlier one spends.
    The identifier of a transaction is a hash of what it spends. -/
def Acyclic : List Transaction → Prop
  | [] => True
  | tx :: rest => (∀ other ∈ tx :: rest, ∀ input ∈ tx.vin, input.prevout.hash ≠ other.txid) ∧ Acyclic rest

theorem check_maturity_self {height : Int} (hfits : IntType.i32.fits height) (output : TxOut) :
    check_maturity height ⟨output, as_u32 height, true⟩ ≠ .ok () := by
  unfold check_maturity
  rw [if_pos rfl, as_i32_as_u32 hfits, sub_self]
  decide

theorem check_connect_tx_mature {ctx : ConnectContext} {tx : Transaction} {coins : CoinsMap}
    {totals after : ConnectTotals} {input : TxIn} {inputs : List TxIn} (hcoinbase : tx.is_coinbase = false)
    (hvin : tx.vin = input :: inputs) (hcheck : check_connect_tx ctx tx (input_coins coins tx) totals = .ok after) :
    ∃ coin, coins input.prevout = some coin ∧ check_maturity ctx.height coin = .ok () := by
  unfold check_connect_tx input_coins at hcheck
  rw [hcoinbase, if_neg (by simp), if_neg (by simp), hvin, List.map_cons] at hcheck
  obtain ⟨fee, hfee, _⟩ := bind_eq_ok_iff.mp hcheck
  have hfee := mapError_eq_ok.mp hfee
  unfold check_tx_inputs_with_coins at hfee
  rw [hcoinbase, if_neg (by simp)] at hfee
  obtain ⟨total_in, hin, _⟩ := bind_eq_ok_iff.mp hfee
  cases hcoin : coins input.prevout with
  | none =>
    rw [hcoin] at hin
    cases hin
  | some coin =>
    rw [hcoin] at hin
    unfold check_input_coins at hin
    obtain ⟨_, _, hin⟩ := bind_eq_ok_iff.mp hin
    obtain ⟨_, hmature, _⟩ := bind_eq_ok_iff.mp hin
    exact ⟨coin, rfl, hmature⟩

theorem connect_txs_refused {ctx : ConnectContext} {txs : List Transaction} {totals : ConnectTotals}
    {view : CoinsViewCache}
    (hrefused : ∀ tx ∈ txs.head?, ∃ e, check_connect_tx ctx tx (input_coins view.visible tx) totals = .error e) :
    (connect_txs ctx txs totals view).2.visible = view.visible := by
  cases txs with
  | nil => rfl
  | cons tx rest =>
    obtain ⟨e, hcheck⟩ := hrefused tx rfl
    unfold connect_txs
    obtain ⟨_, after, _, heq, hreads⟩ | ⟨_, _, hok, _⟩ := connect_tx_cases ctx tx totals view
    · rw [heq]
      exact hreads.visible
    · rw [hcheck] at hok
      cases hok

theorem connect_txs_spends {ctx : ConnectContext} {tx : Transaction} {rest : List Transaction}
    {totals after_totals : ConnectTotals} {view : CoinsViewCache} {input : TxIn} {inputs : List TxIn}
    (hcoinbase : tx.is_coinbase = false) (hvin : tx.vin = input :: inputs) (hacyclic : Acyclic (tx :: rest))
    (hfresh : view.FreshAt input.prevout)
    (hcheck : check_connect_tx ctx tx (input_coins view.visible tx) totals = .ok after_totals) :
    (connect_txs ctx (tx :: rest) totals view).2.visible input.prevout = none := by
  have hhash : ∀ other ∈ tx :: rest, input.prevout.hash ≠ other.txid :=
    fun other hmem => hacyclic.1 other hmem input (by rw [hvin]; simp)
  have hfirst : (connect_tx ctx tx totals view).2.visible input.prevout = none := by
    obtain ⟨e, _, herror, _⟩ | ⟨_, read, _, hreads, heq⟩ := connect_tx_cases ctx tx totals view
    · rw [hcheck] at herror
      cases herror
    · have hspent : (spend_inputs tx.vin read).visible input.prevout = none := by
        rw [hvin]
        exact spend_inputs_hidden inputs (hreads.fresh_at hfresh).spend_coin
      rw [heq, hcoinbase, if_neg (by simp)]
      split
      · exact hspent
      · next after hadd =>
        have hne : ∀ entry ∈ outpoints tx, entry.2.script_pubkey.is_unspendable = false →
            input.prevout ≠ entry.1 :=
          fun entry hmem _ hsame => hhash tx (by simp) (hsame ▸ outpoints_hash hmem)
        have hlookup := add_outputs_lookup_of_ne hne hadd
        have hbase := (add_outputs_spec hadd).2.1
        rw [CoinsViewCache.visible_eq] at hspent ⊢
        rwa [hlookup, hbase]
  have hrest := fun other hmem => hhash other (List.mem_cons_of_mem _ hmem)
  unfold connect_txs
  split
  · next e after heq => rwa [heq] at hfirst
  · next mid_totals undo mid heq =>
    rw [heq] at hfirst
    have hafter := connect_txs_hidden ctx hrest mid_totals hfirst
    split
    · next e after htail => rwa [htail] at hafter
    · next last_totals undos after htail => rwa [htail] at hafter

theorem check_connect_coinbase (ctx : ConnectContext) {block : Block} (hchecked : CheckedBlock block)
    {coinbase : Transaction} {rest : List Transaction} (hvtx : block.vtx = coinbase :: rest)
    (fetched : List (Option Coin)) :
    check_connect_tx ctx coinbase fetched ⟨0, 0⟩ =
      .ok ⟨0, get_legacy_sigop_count coinbase * WITNESS_SCALE_FACTOR⟩ := by
  have hcoinbase : coinbase.is_coinbase = true := hchecked.coinbase_first.1 coinbase (by simp [hvtx])
  have hcost : get_legacy_sigop_count coinbase * WITNESS_SCALE_FACTOR ≤ MAX_BLOCK_SIGOPS_COST := by
    have hsigops := hchecked.sigops
    rw [hvtx, List.map_cons, List.sum_cons] at hsigops
    unfold WITNESS_SCALE_FACTOR MAX_BLOCK_SIGOPS_COST
    omega
  unfold check_connect_tx add_sigop_cost get_transaction_sigop_cost require
  simp [hcoinbase, hcost, bind, Except.bind]

theorem add_all_eq_self {height : UInt32} {is_coinbase : Bool} {outputs : List (OutPoint × TxOut)}
    {coins : CoinsMap} (hthere : ∀ entry ∈ outputs, entry.2.script_pubkey.is_unspendable = false →
      coins entry.1 = some ⟨entry.2, height, is_coinbase⟩) :
    coins.add_all height is_coinbase outputs = coins := by
  induction outputs with
  | nil => rfl
  | cons entry rest ih =>
    obtain ⟨outpoint, output⟩ := entry
    have hrest := ih fun entry hmem => hthere entry (List.mem_cons_of_mem _ hmem)
    rw [CoinsMap.add_all]
    split
    · exact hrest
    · next hspendable =>
      rw [← hthere (outpoint, output) (by simp) (by simpa using hspendable), Function.update_eq_self]
      exact hrest

variable (env : Env)

/-- The blocks whose rejection leaves a map of coins alone: the BIP30 check fires,
    or the coinbase adds nothing new and the first payment, if there is one, is
    refused. -/
def LeavesCoins (coins : CoinsMap) (block : Block) (height : Int) (params : ConsensusParams)
    (mtp_at_height : Option (Int → Int)) : Prop :=
  (enforce_bip30 params height (block.block_hash env.hash256) = true ∧
    ∃ outpoint ∈ new_outpoints block.vtx, (coins outpoint).isSome = true) ∨
  (∀ coinbase ∈ block.vtx.head?,
    (∀ entry ∈ outpoints coinbase, entry.2.script_pubkey.is_unspendable = false →
      coins entry.1 = some ⟨entry.2, as_u32 height, true⟩) ∧
    ∀ tx ∈ block.vtx.tail.head?, ∃ e,
      check_connect_tx (connect_context env block height params mtp_at_height) tx (input_coins coins tx)
        ⟨0, get_legacy_sigop_count coinbase * WITNESS_SCALE_FACTOR⟩ = .error e)

theorem connect_txs_coinbase (ctx : ConnectContext) {block : Block} (hchecked : CheckedBlock block)
    {coinbase : Transaction} {rest : List Transaction} (hvtx : block.vtx = coinbase :: rest)
    (view : CoinsViewCache) :
    (∃ why after, connect_txs ctx block.vtx ⟨0, 0⟩ view = (.error (.panic why), after)) ∨
    (∃ mid, add_coins view coinbase (as_u32 ctx.height) false = .ok mid ∧
      (connect_txs ctx block.vtx ⟨0, 0⟩ view).2 =
        (connect_txs ctx rest ⟨0, get_legacy_sigop_count coinbase * WITNESS_SCALE_FACTOR⟩ mid).2) := by
  have hcoinbase : coinbase.is_coinbase = true := hchecked.coinbase_first.1 coinbase (by simp [hvtx])
  have hcheck := check_connect_coinbase ctx hchecked hvtx []
  rw [hvtx]
  cases hadd : add_coins view coinbase (as_u32 ctx.height) false with
  | error why =>
    refine .inl ⟨why, view, ?_⟩
    simp only [connect_txs, connect_tx, hcoinbase, if_true, hcheck, hadd]
  | ok mid =>
    have hfirst : connect_tx ctx coinbase ⟨0, 0⟩ view =
        (.ok (⟨0, get_legacy_sigop_count coinbase * WITNESS_SCALE_FACTOR⟩, tx_undo coinbase []), mid) := by
      simp only [connect_tx, hcoinbase, if_true, hcheck, hadd]
    refine .inr ⟨mid, rfl, ?_⟩
    rw [connect_txs, hfirst]
    dsimp only
    split
    · next heq => rw [heq]
    · next heq => rw [heq]

theorem connect_txs_leaves {ctx : ConnectContext} {coinbase : Transaction} {rest : List Transaction}
    {totals : ConnectTotals} {view mid : CoinsViewCache} (hcoinbase : coinbase.is_coinbase = true)
    (hadd : add_coins view coinbase (as_u32 ctx.height) false = .ok mid)
    (hthere : ∀ entry ∈ outpoints coinbase, entry.2.script_pubkey.is_unspendable = false →
      view.visible entry.1 = some ⟨entry.2, as_u32 ctx.height, true⟩)
    (hrefused : ∀ tx ∈ rest.head?, ∃ e,
      check_connect_tx ctx tx (input_coins view.visible tx) totals = .error e) :
    (connect_txs ctx rest totals mid).2.visible = view.visible := by
  have hmid : mid.visible = view.visible := by
    rw [(add_outputs_spec hadd).1, hcoinbase]
    exact add_all_eq_self hthere
  rw [← hmid] at hrefused ⊢
  exact connect_txs_refused hrefused

theorem leaves_of_connect_txs {ctx : ConnectContext} {coinbase : Transaction} {rest : List Transaction}
    {totals : ConnectTotals} {view mid : CoinsViewCache} (hfits : IntType.i32.fits ctx.height)
    (hcoherent : view.Coherent) (hcoinbase : coinbase.is_coinbase = true)
    (hlength : coinbase.vout.length < 2 ^ 32) (hpayments : ∀ tx ∈ rest, tx.is_coinbase = false ∧ Checked tx)
    (hacyclic : Acyclic rest) (hadd : add_coins view coinbase (as_u32 ctx.height) false = .ok mid)
    (hsame : (connect_txs ctx rest totals mid).2.visible = view.visible) :
    (∀ entry ∈ outpoints coinbase, entry.2.script_pubkey.is_unspendable = false →
      view.visible entry.1 = some ⟨entry.2, as_u32 ctx.height, true⟩) ∧
    ∀ tx ∈ rest.head?, ∃ e, check_connect_tx ctx tx (input_coins view.visible tx) totals = .error e := by
  obtain ⟨hmid, hbase, _⟩ := add_outputs_spec hadd
  rw [hcoinbase] at hmid
  have hadded : ∀ entry ∈ outpoints coinbase, entry.2.script_pubkey.is_unspendable = false →
      mid.visible entry.1 = some ⟨entry.2, as_u32 ctx.height, true⟩ := by
    intro entry hmem hspendable
    rw [hmid, CoinsMap.add_all_of_mem (outpoints_nodup hlength) hmem, if_neg (by simp [hspendable])]
  have hrefused : ∀ tx ∈ rest.head?, ∃ e,
      check_connect_tx ctx tx (input_coins mid.visible tx) totals = .error e := by
    intro tx htx
    cases hcheck : check_connect_tx ctx tx (input_coins mid.visible tx) totals with
    | error e => exact ⟨e, rfl⟩
    | ok after_totals =>
      exfalso
      obtain ⟨tail, rfl⟩ : ∃ tail, rest = tx :: tail := by
        cases rest with
        | nil => cases htx
        | cons head tail =>
          cases htx
          exact ⟨tail, rfl⟩
      obtain ⟨hpayment, hchecked⟩ := hpayments tx (by simp)
      obtain ⟨input, inputs, hvin⟩ := List.exists_cons_of_ne_nil hchecked.vin_nonempty
      obtain ⟨coin, hcoin, hmature⟩ := check_connect_tx_mature hpayment hvin hcheck
      -- The coin is not one of this block's coinbase, so it was there before.
      have hother : ∀ entry ∈ outpoints coinbase, entry.2.script_pubkey.is_unspendable = false →
          input.prevout ≠ entry.1 := by
        rintro entry hmem hspendable heq
        rw [heq, hadded entry hmem hspendable] at hcoin
        cases hcoin
        exact check_maturity_self hfits entry.2 hmature
      have hlookup := add_outputs_lookup_of_ne hother hadd
      have hfresh : mid.FreshAt input.prevout := by
        intro entry hcache hflag
        rw [hbase]
        rw [hlookup] at hcache
        exact hcoherent.fresh hcache hflag
      have hgone := connect_txs_spends hpayment hvin hacyclic hfresh hcheck
      rw [hsame, CoinsViewCache.visible_eq] at hgone
      rw [CoinsViewCache.visible_eq, hlookup, hbase, hgone] at hcoin
      cases hcoin
  have hkept : mid.visible = view.visible := (connect_txs_refused hrefused).symm.trans hsame
  rw [hkept] at hadded hrefused
  exact ⟨hadded, hrefused⟩

/-- A block that `connect_block` rejects leaves the visible coins exactly when it is
    one of `LeavesCoins`. Only the converse needs a coherent view and a block whose
    payments do not recreate what they spend. -/
theorem connect_block_rejected {block : Block} {height : Int} {view after : CoinsViewCache}
    {params : ConsensusParams} {mtp_at_height : Option (Int → Int)} {skip_scripts : Bool}
    {state : BlockValidationState} (hchecked : CheckedBlock block)
    (hreject : connect_block env block height view params mtp_at_height skip_scripts =
      (.error (.invalid state), after)) :
    (LeavesCoins env view.visible block height params mtp_at_height → after.visible = view.visible) ∧
    (IntType.i32.fits height → view.Coherent → Acyclic block.vtx.tail → after.visible = view.visible →
      LeavesCoins env view.visible block height params mtp_at_height) := by
  obtain ⟨coinbase, rest, hvtx⟩ := List.exists_cons_of_ne_nil hchecked.nonempty
  have hcoinbase : coinbase.is_coinbase = true := hchecked.coinbase_first.1 coinbase (by simp [hvtx])
  have hbip30 := (check_bip30_spec env block height params view).2
  obtain ⟨read, hfired, hreads, heq⟩ | ⟨hpassed, hrest⟩ :=
    connect_block_cases env block height view params mtp_at_height skip_scripts
  · rw [heq] at hreject
    cases hreject
    rw [hfired] at hbip30
    refine ⟨fun _ => hreads.visible, fun _ _ _ _ => .inl ?_⟩
    simpa using hbip30.symm
  · -- In every other rejection the view is the one that the loop leaves.
    have hafter : (connect_txs (connect_context env block height params mtp_at_height) block.vtx ⟨0, 0⟩
        (prepared_view env block height params view)).2 = after ∧
        ∀ why other, connect_txs (connect_context env block height params mtp_at_height) block.vtx ⟨0, 0⟩
          (prepared_view env block height params view) ≠ (.error (.panic why), other) := by
      obtain ⟨e, other, hloop, heq⟩ | ⟨totals, undo, other, hloop, ⟨e, _, heq⟩ | ⟨_, heq⟩⟩ := hrest
      · rw [heq] at hreject
        cases hreject
        rw [hloop]
        exact ⟨rfl, by simp⟩
      · rw [heq] at hreject
        cases hreject
        rw [hloop]
        exact ⟨rfl, by simp⟩
      · rw [heq] at hreject
        cases hreject
    have hreads := prepared_view_reads env block height params view
    obtain ⟨why, other, hpanic⟩ | ⟨mid, hadd, hloop⟩ :=
      connect_txs_coinbase (connect_context env block height params mtp_at_height) hchecked hvtx
        (prepared_view env block height params view)
    · exact absurd hpanic (hafter.2 why other)
    · rw [hafter.1] at hloop
      rw [hloop, ← hreads.visible]
      constructor
      · rintro (⟨henforced, hexists⟩ | hleaves)
        · rw [hreads.visible] at hexists
          rw [hpassed, henforced, Bool.true_and] at hbip30
          simp only [Bool.false_eq, List.any_eq_false] at hbip30
          obtain ⟨outpoint, hmem, hsome⟩ := hexists
          exact absurd hsome (hbip30 outpoint hmem)
        · rw [hvtx] at hleaves
          obtain ⟨hthere, hrefused⟩ := hleaves coinbase rfl
          exact connect_txs_leaves hcoinbase hadd hthere hrefused
      · intro hfits hcoherent hacyclic hsame
        have hpayments : ∀ tx ∈ rest, tx.is_coinbase = false ∧ Checked tx := by
          intro tx hmem
          refine ⟨hchecked.coinbase_first.2 tx (by simpa [hvtx] using hmem), ?_⟩
          exact hchecked.checked tx (by simp [hvtx, hmem])
        rw [hvtx] at hacyclic
        have hlength := (hchecked.checked coinbase (by simp [hvtx])).vout_length
        refine .inr fun first hfirst => ?_
        rw [hvtx] at hfirst ⊢
        cases hfirst
        exact leaves_of_connect_txs hfits (hreads.coherent hcoherent) hcoinbase hlength hpayments hacyclic
          hadd hsame

end qubitcoin.validation
