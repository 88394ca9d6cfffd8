import Qubitcoin.Validation.Rewind
import Qubitcoin.Validation.Spent

/-! Blocks that are accepted one on top of the other. Every input uses up one coin, which was there
    before the blocks or was made by an earlier transaction, and the coins are worth no more than
    the subsidies allow. -/

open qubitcoin primitives script transaction block coins params check validation_state transition
  tally

namespace qubitcoin.validation

/-- How many coins an outpoint has: one or none. -/
def unspent (coins : CoinsMap) (outpoint : OutPoint) : Nat := (coins outpoint).toList.length

/-- A transaction with the height at which it is confirmed. -/
structure PlacedTx where
  height : Int
  tx : Transaction

/-- The outpoints that a transaction spends. -/
def PlacedTx.spent (self : PlacedTx) : List OutPoint :=
  if self.tx.is_coinbase then [] else self.tx.vin.map TxIn.prevout

/-- The outpoints of the coins that it makes. -/
def PlacedTx.created (self : PlacedTx) : List OutPoint := spendable_outpoints (outpoints self.tx)

/-- The coin that it makes at an outpoint. -/
def PlacedTx.Makes (self : PlacedTx) (outpoint : OutPoint) (coin : Coin) : Prop :=
  ∃ output, (outpoint, output) ∈ outpoints self.tx ∧ output.script_pubkey.is_unspendable = false ∧
    coin = ⟨output, as_u32 self.height, self.tx.is_coinbase⟩

/-- The transaction is applied to a map of coins. Each of its inputs has a coin that may be spent
    at its height, and it makes no coin where there is one. -/
structure Applies (coins : CoinsMap) (placed : PlacedTx) (after : CoinsMap) : Prop where
  checked : Checked placed.tx
  inputs : ∀ outpoint ∈ placed.spent, ∃ coin, coins outpoint = some coin ∧ Mature placed.height coin
  fresh : ∀ outpoint ∈ placed.created, coins outpoint = none
  applied : after = coins.apply_tx (as_u32 placed.height) placed.tx

variable {coins after : CoinsMap} {placed : PlacedTx} {outpoint : OutPoint}

theorem PlacedTx.spent_nodup (hchecked : Checked placed.tx) : placed.spent.Nodup := by
  unfold PlacedTx.spent
  split
  · exact List.nodup_nil
  · exact hchecked.prevouts_nodup

theorem PlacedTx.created_nodup (hchecked : Checked placed.tx) : placed.created.Nodup :=
  (outpoints_nodup hchecked.vout_length).sublist (List.filter_sublist.map Prod.fst)

theorem PlacedTx.mem_created : outpoint ∈ placed.created ↔ ∃ coin, placed.Makes outpoint coin := by
  unfold PlacedTx.created PlacedTx.Makes spendable_outpoints
  simp only [List.mem_map, List.mem_filter, Bool.not_eq_true', Prod.exists, exists_and_right, exists_eq_right]
  constructor
  · rintro ⟨output, hmem, hspendable⟩
    exact ⟨_, output, hmem, hspendable, rfl⟩
  · rintro ⟨coin, output, hmem, hspendable, rfl⟩
    exact ⟨output, hmem, hspendable⟩

namespace Applies

theorem of_makes (happlies : Applies coins placed after) {coin : Coin} (hmakes : placed.Makes outpoint coin) :
    after outpoint = some coin := by
  obtain ⟨output, hmem, hspendable, rfl⟩ := hmakes
  rw [happlies.applied, CoinsMap.apply_tx, CoinsMap.add_all_of_mem (outpoints_nodup happlies.checked.vout_length) hmem,
    hspendable, if_neg (by simp)]

theorem of_not_created (happlies : Applies coins placed after) (hcreated : outpoint ∉ placed.created) :
    after outpoint = if outpoint ∈ placed.spent then none else coins outpoint := by
  rw [happlies.applied, CoinsMap.apply_tx, add_all_of_not_spendable hcreated]
  unfold PlacedTx.spent
  split
  · rw [if_neg List.not_mem_nil]
  · rw [CoinsMap.spend_all_apply]

theorem balanced (happlies : Applies coins placed after) :
    Balanced unspent PlacedTx.spent PlacedTx.created coins [placed] after := by
  intro outpoint
  simp only [List.flatMap_cons, List.flatMap_nil, List.append_nil]
  rw [(PlacedTx.spent_nodup happlies.checked).count, (PlacedTx.created_nodup happlies.checked).count]
  unfold unspent
  by_cases hcreated : outpoint ∈ placed.created
  · obtain ⟨coin, hmakes⟩ := PlacedTx.mem_created.mp hcreated
    have hnone := happlies.fresh outpoint hcreated
    have hspent : outpoint ∉ placed.spent := by
      intro hspent
      obtain ⟨coin, hsome, _⟩ := happlies.inputs outpoint hspent
      rw [hnone] at hsome
      cases hsome
    rw [happlies.of_makes hmakes, hnone, if_neg hspent, if_pos hcreated]
    rfl
  · rw [happlies.of_not_created hcreated, if_neg hcreated]
    by_cases hspent : outpoint ∈ placed.spent
    · obtain ⟨coin, hsome, _⟩ := happlies.inputs outpoint hspent
      rw [if_pos hspent, if_pos hspent, hsome]
      rfl
    · rw [if_neg hspent, if_neg hspent]

theorem source (happlies : Applies coins placed after) {coin : Coin} (hsome : after outpoint = some coin) :
    coins outpoint = some coin ∨ placed.Makes outpoint coin := by
  by_cases hcreated : outpoint ∈ placed.created
  · obtain ⟨other, hmakes⟩ := PlacedTx.mem_created.mp hcreated
    rw [happlies.of_makes hmakes] at hsome
    cases hsome
    exact .inr hmakes
  · rw [happlies.of_not_created hcreated] at hsome
    split at hsome
    · cases hsome
    · exact .inl hsome

end Applies

theorem applied_source {txs : List PlacedTx} (hrun : Trace Applies coins txs after) {coin : Coin}
    (hsome : after outpoint = some coin) : coins outpoint = some coin ∨ ∃ creator ∈ txs, creator.Makes outpoint coin := by
  induction hrun with
  | nil => exact .inl hsome
  | @cons first mid last placed rest head _ ih =>
    obtain hmid | ⟨creator, hcreator, hmakes⟩ := ih hsome
    · exact (head.source hmid).imp_right fun hmakes => ⟨placed, List.mem_cons_self, hmakes⟩
    · exact .inr ⟨creator, List.mem_cons_of_mem placed hcreator, hmakes⟩

theorem check_connect_tx_inputs {ctx : ConnectContext} {tx : Transaction} {coins : CoinsMap}
    {totals after_totals : ConnectTotals} (hcoinbase : tx.is_coinbase = false)
    (hcheck : check_connect_tx ctx tx (input_coins coins tx) totals = .ok after_totals) :
    ∀ input ∈ tx.vin, ∃ coin, coins input.prevout = some coin ∧ Mature ctx.height coin := by
  obtain ⟨fetched, _, hfetched, _⟩ := check_connect_tx_ok hcoinbase hcheck
  have hmature : ∀ coin ∈ fetched, Mature ctx.height coin := by
    unfold check_connect_tx at hcheck
    rw [hcoinbase, if_neg (by simp)] at hcheck
    obtain ⟨fee, hfee, _⟩ := bind_eq_ok_iff.mp hcheck
    have hfee := mapError_eq_ok.mp hfee
    unfold check_tx_inputs_with_coins at hfee
    rw [hcoinbase, if_neg (by simp), hfetched] at hfee
    obtain ⟨total_in, hin, _⟩ := bind_eq_ok_iff.mp hfee
    exact check_input_coins_mature hin
  intro input hinput
  have hmem : coins input.prevout ∈ fetched.map some := by
    rw [← hfetched]
    unfold input_coins
    rw [hcoinbase, if_neg (by simp)]
    exact List.mem_map.mpr ⟨input, hinput, rfl⟩
  obtain ⟨coin, hcoin, heq⟩ := List.mem_map.mp hmem
  exact ⟨coin, heq.symm, hmature coin hcoin⟩

/-- The transactions of a block that is connected at a height. -/
def placed_txs (height : Int) (txs : List Transaction) : List PlacedTx := txs.map (PlacedTx.mk height)

theorem connect_tx_applies {ctx : ConnectContext} {tx : Transaction} {totals after_totals : ConnectTotals}
    {undo : List TxUndo} {view after : CoinsViewCache} (hcoherent : view.Coherent) (hchecked : Checked tx)
    (hfresh : ∀ outpoint ∈ spendable_outpoints (outpoints tx), view.visible outpoint = none)
    (hconnect : connect_tx ctx tx totals view = (.ok (after_totals, undo), after)) :
    Applies view.visible ⟨ctx.height, tx⟩ after.visible ∧ after.Coherent := by
  obtain ⟨hcheck, _⟩ := connect_tx_checked hconnect
  obtain ⟨hvisible, hafter⟩ := connect_tx_applied hcoherent hfresh hconnect
  refine ⟨⟨hchecked, fun outpoint houtpoint => ?_, hfresh, hvisible⟩, hafter⟩
  unfold PlacedTx.spent at houtpoint
  split at houtpoint
  · exact absurd houtpoint List.not_mem_nil
  · next hcoinbase =>
    obtain ⟨input, hinput, rfl⟩ := List.mem_map.mp houtpoint
    exact check_connect_tx_inputs (Bool.eq_false_of_not_eq_true hcoinbase) hcheck input hinput

theorem connect_txs_trace {ctx : ConnectContext} {txs : List Transaction} :
    ∀ {totals after_totals : ConnectTotals} {records : List TxUndo} {view after : CoinsViewCache},
      view.Coherent → (∀ tx ∈ txs, Checked tx) → CreatesFresh (as_u32 ctx.height) view.visible txs →
      connect_txs ctx txs totals view = (.ok (after_totals, records), after) →
      after.Coherent ∧ Trace Applies view.visible (placed_txs ctx.height txs) after.visible := by
  induction txs with
  | nil =>
    intro totals after_totals records view after hcoherent _ _ hconnect
    cases hconnect
    exact ⟨hcoherent, .nil _⟩
  | cons tx rest ih =>
    intro totals after_totals records view after hcoherent hchecked hfresh hconnect
    obtain ⟨mid_totals, first, mid, others, hfirst, hrest, rfl⟩ := connect_txs_cons_ok.mp hconnect
    obtain ⟨happlies, hmid⟩ := connect_tx_applies hcoherent (hchecked tx List.mem_cons_self) hfresh.1 hfirst
    have hvisible := happlies.applied
    obtain ⟨hafter, hrun⟩ := ih hmid (fun other hmem => hchecked other (List.mem_cons_of_mem tx hmem))
      (hvisible ▸ hfresh.2) hrest
    exact ⟨hafter, .cons happlies hrun⟩

theorem creates_fresh_of_free {height : UInt32} {txs : List Transaction} : ∀ {coins : CoinsMap},
    (txs.map Transaction.txid).Nodup → (∀ outpoint ∈ new_outpoints txs, coins outpoint = none) →
    CreatesFresh height coins txs := by
  induction txs with
  | nil => exact fun _ _ => trivial
  | cons tx rest ih =>
    intro coins hnodup hfree
    rw [List.map_cons, List.nodup_cons] at hnodup
    constructor
    · intro outpoint hmem
      obtain ⟨entry, hentry, rfl⟩ := List.mem_map.mp hmem
      exact hfree _ (mem_new_outpoints List.mem_cons_self (List.mem_of_mem_filter hentry))
    · refine ih hnodup.2 fun outpoint hmem => ?_
      obtain ⟨other, hother, houtpoint⟩ := List.mem_flatMap.mp hmem
      obtain ⟨entry, hentry, rfl⟩ := List.mem_map.mp houtpoint
      refine apply_tx_free ?_ (hfree _ (mem_new_outpoints (List.mem_cons_of_mem tx hother) hentry))
      rw [outpoints_hash hentry]
      exact fun heq => hnodup.1 (heq ▸ List.mem_map_of_mem hother)

variable (env : Env)

/-- Where repeated transactions are not looked for, the view has none of the block's outputs. -/
def Unrepeated (params : ConsensusParams) (height : Int) (block : Block) (view : CoinsViewCache) : Prop :=
  enforce_bip30 params height (block.block_hash env.hash256) = false →
    ∀ outpoint ∈ new_outpoints block.vtx, view.visible outpoint = none

theorem free_of_accepted {block : Block} {height : Int} {view after : CoinsViewCache}
    {params : ConsensusParams} {skip_scripts : Bool} {mtp_at_height : Option (Int → Int)} {undo : BlockUndo}
    (hfree : Unrepeated env params height block view)
    (hconnect : connect_block env block height view params mtp_at_height skip_scripts = (.ok undo, after)) :
    ∀ outpoint ∈ new_outpoints block.vtx, view.visible outpoint = none := by
  cases henforced : enforce_bip30 params height (block.block_hash env.hash256) with
  | false => exact hfree henforced
  | true =>
    obtain ⟨_, hbip30, _⟩ := connect_block_ok env hconnect
    rw [(check_bip30_spec env block height params view).2, henforced, Bool.true_and] at hbip30
    intro outpoint hmem
    simpa using List.any_eq_false.mp hbip30 outpoint hmem

/-- Blocks that pass the checks of a block and connect one after the other. -/
inductive AcceptsAll (params : ConsensusParams) : CoinsViewCache → List ConnectedBlock → CoinsViewCache → Prop
  | nil (view : CoinsViewCache) : AcceptsAll params view [] view
  | cons {view mid after : CoinsViewCache} {step : ConnectedBlock} {rest : List ConnectedBlock}
    {check_merkle_root skip_scripts : Bool} {mtp_at_height : Option (Int → Int)}
    (hcheck : check_block env step.block params check_merkle_root = .ok ())
    (hfree : Unrepeated env params step.height step.block view)
    (hconnect : connect_block env step.block step.height view params mtp_at_height skip_scripts =
      (.ok step.undo, mid))
    (hrest : AcceptsAll params mid rest after) : AcceptsAll params view (step :: rest) after

/-- All transactions of the blocks, in order. -/
def chain_txs (steps : List ConnectedBlock) : List PlacedTx :=
  steps.flatMap fun step => placed_txs step.height step.block.vtx

variable {env}

theorem AcceptsAll.append {params : ConsensusParams} {first mid last : CoinsViewCache} {steps later : List ConnectedBlock}
    (hfirst : AcceptsAll env params first steps mid) (hlater : AcceptsAll env params mid later last) :
    AcceptsAll env params first (steps ++ later) last := by
  induction hfirst with
  | nil view => exact hlater
  | cons hcheck hfree hconnect _ ih => exact .cons hcheck hfree hconnect (ih hlater)

theorem AcceptsAll.trace {params : ConsensusParams} {view after : CoinsViewCache} {steps : List ConnectedBlock}
    (haccepts : AcceptsAll env params view steps after) (hcoherent : view.Coherent) :
    after.Coherent ∧ Trace Applies view.visible (chain_txs steps) after.visible := by
  induction haccepts with
  | nil view => exact ⟨hcoherent, .nil _⟩
  | @cons view mid after step rest check_merkle_root skip_scripts mtp_at_height hcheck hfree hconnect _ ih =>
    have hchecked := check_block_ok env hcheck
    obtain ⟨totals, _, hloop, _⟩ := connect_block_ok env hconnect
    have hreads := prepared_view_reads env step.block step.height params view
    have hfresh : CreatesFresh (as_u32 step.height) view.visible step.block.vtx :=
      creates_fresh_of_free hchecked.txids_nodup (free_of_accepted env hfree hconnect)
    rw [← hreads.visible] at hfresh ⊢
    obtain ⟨hmid, hrun⟩ := connect_txs_trace (hreads.coherent hcoherent) hchecked.checked hfresh hloop
    obtain ⟨hafter, hrest⟩ := ih hmid
    exact ⟨hafter, hrun.append hrest⟩

/-- What transactions spend and leave is what was there and what they make, each coin once. At
    every input one coin more was there or has been made than has been spent, and that coin may
    be spent at the height. -/
structure SpendsOnce (coins : CoinsMap) (txs : List PlacedTx) (after : CoinsMap) : Prop where
  balanced : Balanced unspent PlacedTx.spent PlacedTx.created coins txs after
  inputs : ∀ before placed later, txs = before ++ placed :: later → ∀ outpoint ∈ placed.spent,
    (before.flatMap PlacedTx.spent).count outpoint + 1 =
        unspent coins outpoint + (before.flatMap PlacedTx.created).count outpoint ∧
      ∃ coin, Mature placed.height coin ∧
        (coins outpoint = some coin ∨ ∃ creator ∈ before, creator.Makes outpoint coin)

/-- No coin is spent twice in a chain of accepted blocks, and none that is not there. -/
theorem accepted_spends_once {params : ConsensusParams} {view after : CoinsViewCache} {steps : List ConnectedBlock}
    (haccepts : AcceptsAll env params view steps after) (hcoherent : view.Coherent) :
    SpendsOnce view.visible (chain_txs steps) after.visible := by
  obtain ⟨_, hrun⟩ := haccepts.trace hcoherent
  refine ⟨.of_trace Applies.balanced hrun, fun before placed later hsplit outpoint hspent => ?_⟩
  rw [hsplit] at hrun
  obtain ⟨mid, hbefore, hrest⟩ := hrun.split
  cases hrest with
  | cons happlies _ =>
    obtain ⟨coin, hcoin, hmature⟩ := happlies.inputs outpoint hspent
    have hbalanced : unspent mid outpoint + (before.flatMap PlacedTx.spent).count outpoint =
        unspent view.visible outpoint + (before.flatMap PlacedTx.created).count outpoint :=
      Balanced.of_trace Applies.balanced hbefore outpoint
    have hone : unspent mid outpoint = 1 := by
      unfold unspent
      rw [hcoin]
      rfl
    exact ⟨by omega, coin, hmature, applied_source hbefore hcoin⟩

/-- The view after the block of the sample payment. -/
def paid_view : CoinsViewCache :=
  (connect_block .op_true payment_step.block 1 (CoinsViewCache.new funding_base) .regtest none false).2

theorem payment_accepted : AcceptsAll .op_true .regtest (CoinsViewCache.new funding_base) [payment_step] paid_view := by
  have hconnect : connect_block .op_true payment_step.block 1 (CoinsViewCache.new funding_base) .regtest none false =
      (.ok payment_step.undo, paid_view) := Prod.ext (by decide +kernel) rfl
  have hcheck : check_block .op_true payment_step.block .regtest true = .ok () := by decide +kernel
  have hfree : ∀ outpoint ∈ new_outpoints payment_step.block.vtx,
      (CoinsViewCache.new funding_base).visible outpoint = none := by decide +kernel
  exact .cons hcheck (fun _ => hfree) hconnect (.nil _)

theorem accepted_spends_once_payment :
    SpendsOnce (CoinsViewCache.new funding_base).visible (chain_txs [payment_step]) paid_view.visible :=
  accepted_spends_once payment_accepted (CoinsViewCache.new_coherent _)

def halved_subsidy (halvings : Nat) : Nat := 5000000000 / 2 ^ halvings

/-- A bound on the subsidies of all blocks from a height on: those of the period that are left, and
    a whole period of them for everything after it. -/
def issuable (interval height : Nat) : Nat :=
  (2 * interval - height % interval) * halved_subsidy (height / interval)

theorem issuable_step {interval : Nat} (hinterval : 0 < interval) (height : Nat) :
    halved_subsidy (height / interval) + issuable interval (height + 1) ≤ issuable interval height := by
  unfold issuable
  have hdiv := Nat.div_add_mod height interval
  have hmod := Nat.mod_lt height hinterval
  generalize height / interval = halvings at hdiv ⊢
  generalize height % interval = past at hdiv hmod ⊢
  subst hdiv
  by_cases hlast : past + 1 = interval
  · -- The next block is the first one of a halved period.
    have hnext : interval * halvings + past + 1 = interval * (halvings + 1) := by
      rw [Nat.mul_add, Nat.mul_one, Nat.add_assoc, hlast]
    have hhalf : 2 * halved_subsidy (halvings + 1) ≤ halved_subsidy halvings := by
      unfold halved_subsidy
      rw [Nat.pow_succ, ← Nat.div_div_eq_div_mul]
      exact Nat.mul_div_le _ 2
    have hleft : 2 * interval - past = interval + 1 := by omega
    have hperiod := Nat.mul_le_mul_left interval hhalf
    rw [hnext, Nat.mul_mod_right, Nat.mul_div_cancel_left _ hinterval, hleft, Nat.sub_zero, Nat.mul_comm 2,
      Nat.mul_assoc, Nat.add_mul, Nat.one_mul]
    omega
  · have hlt : past + 1 < interval := by omega
    have hleft : 2 * interval - past = 1 + (2 * interval - (past + 1)) := by omega
    rw [Nat.add_assoc, Nat.mul_add_mod, Nat.mul_add_div hinterval, Nat.mod_eq_of_lt hlt, Nat.div_eq_of_lt hlt,
      hleft, Nat.add_mul, Nat.one_mul]
    exact le_rfl

theorem get_block_subsidy_le {S : Type} {height : Nat} {params : ConsensusParams} {subsidy : Int}
    (hinterval : 0 < params.subsidy_halving_interval)
    (hsubsidy : (get_block_subsidy height params : Except (Failure S) Amount) = .ok subsidy) :
    subsidy ≤ halved_subsidy (height / params.subsidy_halving_interval.toNat) := by
  obtain ⟨interval, heq⟩ := Int.eq_ofNat_of_zero_le hinterval.le
  unfold get_block_subsidy at hsubsidy
  rw [if_neg hinterval.ne', heq] at hsubsidy
  obtain ⟨halvings, hhalvings, hsubsidy⟩ := bind_eq_ok_iff.mp hsubsidy
  obtain ⟨rfl, _⟩ := checked_eq_ok.mp hhalvings
  rw [← Int.ofNat_tdiv] at hsubsidy
  rw [heq, Int.toNat_natCast]
  split at hsubsidy
  · cases hsubsidy
    exact Int.natCast_nonneg _
  · rw [if_neg (Int.not_lt.mpr (Int.natCast_nonneg _)), Int.toNat_natCast] at hsubsidy
    cases hsubsidy
    unfold halved_subsidy
    push_cast
    exact le_rfl

theorem AcceptsAll.supply {params : ConsensusParams} {view after : CoinsViewCache} {steps : List ConnectedBlock}
    (haccepts : AcceptsAll env params view steps after) (hinterval : 0 < params.subsidy_halving_interval) :
    ∀ {next : Nat}, view.Coherent →
      steps.map ConnectedBlock.height = (List.range' next steps.length).map Nat.cast →
      after.visible.total + issuable params.subsidy_halving_interval.toNat (next + steps.length) ≤
        view.visible.total + issuable params.subsidy_halving_interval.toNat next := by
  induction haccepts with
  | nil view => exact fun _ _ => le_rfl
  | @cons view mid after step rest check_merkle_root skip_scripts mtp_at_height hcheck hfree hconnect _ ih =>
    intro next hcoherent hheights
    rw [List.length_cons, List.range'_succ, List.map_cons, List.map_cons, List.cons.injEq] at hheights
    obtain ⟨hheight, hheights⟩ := hheights
    obtain ⟨hmid, _⟩ := (AcceptsAll.cons hcheck hfree hconnect (.nil mid)).trace hcoherent
    obtain ⟨subsidy, hsubsidy, htotal⟩ :=
      connect_block_total env (check_block_ok env hcheck) hcoherent (free_of_accepted env hfree hconnect) hconnect
    rw [hheight] at hsubsidy
    have hissued := get_block_subsidy_le hinterval hsubsidy
    have hleft := issuable_step (Int.pos_iff_toNat_pos.mp hinterval) next
    have hrest := ih hmid hheights
    rw [Nat.add_assoc, Nat.add_comm 1] at hrest
    rw [List.length_cons]
    omega

/-- What the coins are worth and what may still be issued never add up to more than before. From no coins
    and the first height of the main network on that is all the money there is. -/
theorem accepted_supply_bounded {params : ConsensusParams} {view after : CoinsViewCache} {steps : List ConnectedBlock}
    (haccepts : AcceptsAll env params view steps after) (hinterval : 0 < params.subsidy_halving_interval) {next : Nat}
    (hcoherent : view.Coherent) (hheights : steps.map ConnectedBlock.height = (List.range' next steps.length).map Nat.cast) :
    after.visible.total + issuable params.subsidy_halving_interval.toNat (next + steps.length) ≤
        view.visible.total + issuable params.subsidy_halving_interval.toNat next ∧
      (params.subsidy_halving_interval = 210000 → next = 0 → (∀ outpoint, view.visible outpoint = none) →
        after.visible.total ≤ MAX_MONEY) := by
  have hsupply := haccepts.supply hinterval hcoherent hheights
  refine ⟨hsupply, fun hmain hfirst hnone => ?_⟩
  have hempty : view.visible.total = 0 := finsum_eq_zero_of_forall_eq_zero fun outpoint => by rw [hnone]; rfl
  have hall : (issuable 210000 0 : Int) = MAX_MONEY := by decide
  have hleft : (0 : Int) ≤ issuable 210000 steps.length := Int.natCast_nonneg _
  rw [hmain, hfirst, hempty, Nat.zero_add, zero_add] at hsupply
  change after.visible.total + issuable 210000 steps.length ≤ (issuable 210000 0 : Int) at hsupply
  omega

/-- The parameters of the tests with the interval of the main network. -/
def slow_halving : ConsensusParams := { ConsensusParams.regtest with subsidy_halving_interval := 210000 }

def first_step : ConnectedBlock := ⟨sample_block [sample_coinbase [1, 1] 50], 0, ⟨[]⟩⟩

theorem accepted_supply_bounded_payment :
    paid_view.visible.total + issuable 150 2 ≤ (CoinsViewCache.new funding_base).visible.total + issuable 150 1 ∧
      ∃ after, AcceptsAll .op_true slow_halving (CoinsViewCache.new ⟨∅, 0⟩) [first_step] after ∧
        after.visible.total ≤ MAX_MONEY := by
  have hconnect : (connect_block .op_true first_step.block 0 (CoinsViewCache.new ⟨∅, 0⟩) slow_halving none false).1 =
      .ok first_step.undo := by decide +kernel
  have hcheck : check_block .op_true first_step.block slow_halving true = .ok () := by decide +kernel
  have hnone : ∀ outpoint, (CoinsViewCache.new ⟨∅, 0⟩).visible outpoint = none := fun outpoint => rfl
  have haccepts : AcceptsAll .op_true slow_halving (CoinsViewCache.new ⟨∅, 0⟩) [first_step] _ :=
    .cons hcheck (fun _ outpoint _ => hnone outpoint) (Prod.ext hconnect rfl) (.nil _)
  have hheights : [first_step].map ConnectedBlock.height = (List.range' 0 1).map Nat.cast := rfl
  exact ⟨(accepted_supply_bounded payment_accepted (by decide) (CoinsViewCache.new_coherent _) rfl).1, _, haccepts,
    (accepted_supply_bounded haccepts (by decide) (CoinsViewCache.new_coherent _) hheights).2 rfl rfl hnone⟩

end qubitcoin.validation
