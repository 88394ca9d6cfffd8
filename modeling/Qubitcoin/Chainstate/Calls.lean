import Qubitcoin.Chainstate.Headed
import Qubitcoin.Validation.Calls

/-! What every call of the coins keeps, processing a block keeps, whether the chain grows, is
    reorganized or the block is rejected on the way. -/

open qubitcoin primitives block coins chain chainparams validation_state qubitcoin.validation

namespace qubitcoin.chainstate

/-- A property of coins views that the mark has no part in. -/
structure KeptByChain (P : CoinsViewCache → Prop) : Prop extends KeptByCalls P where
  set_best_block : ∀ {view : CoinsViewCache} (hash : BlockHash), P view → P (view.set_best_block hash)

namespace KeptByChain

variable {P : CoinsViewCache → Prop} (hkept : KeptByChain P) (env : Env)
include hkept

theorem disconnect_loop {self : ChainstateManager} {block_reader : BlockReader} {heights : List Int} :
    ∀ {view after : CoinsViewCache}, P view → self.disconnect_loop block_reader heights view = .ok after → P after := by
  induction heights with
  | nil =>
    intro view after hview hloop
    cases hloop
    exact hview
  | cons h rest ih =>
    intro view after hview hloop
    unfold ChainstateManager.disconnect_loop at hloop
    split at hloop
    · exact ih hview hloop
    · obtain ⟨⟨result, mid⟩, hundo, hrest⟩ := bind_eq_ok_iff.mp hloop
      exact ih (hkept.disconnect_block hview hundo) hrest

theorem connect_at {self : ChainstateManager} (block_reader : BlockReader) (h : Int) (idx : Nat)
    (hself : P self.coins_tip) : P (self.connect_at env block_reader h idx).2.coins_tip := by
  unfold ChainstateManager.connect_at
  split
  · exact hself
  · next block undo _ =>
    have hconnect := hkept.connect_block env block h self.params.consensus (some (self.mtp_lookup 0))
      (self.should_skip_scripts idx) hself
    split
    · next heq =>
      rw [heq] at hconnect
      rw [ChainstateManager.mark_failed_coins_tip]
      exact hconnect
    · next heq =>
      rw [heq] at hconnect
      split
      · exact hconnect
      · exact (self.connected_coins_tip idx _).symm ▸ hconnect

theorem connect_loop (block_reader : BlockReader) (just_connected : Option Nat) (new_chain : List Nat) (heights : List Int) :
    ∀ {self : ChainstateManager}, P self.coins_tip →
      P (ChainstateManager.connect_loop env block_reader just_connected new_chain heights self).2.coins_tip := by
  induction heights with
  | nil => exact fun hself => hself
  | cons h rest ih =>
    intro self hself
    unfold ChainstateManager.connect_loop
    split
    · exact hself
    · next idx _ =>
      split
      · exact ih hself
      · have hconnect := hkept.connect_at env block_reader h idx hself
        split
        · next heq =>
          rw [heq] at hconnect
          exact hconnect
        · next heq =>
          rw [heq] at hconnect
          exact ih hconnect

theorem reorganize {self : ChainstateManager} (block_reader : BlockReader) (just_connected : Option Nat) (best_idx : Nat)
    (hself : P self.coins_tip) : P (self.reorganize env block_reader just_connected best_idx).2.coins_tip := by
  unfold ChainstateManager.reorganize
  dsimp only
  split
  · exact hself
  · next coins_tip hdisconnect =>
    have hdown : P ({ self with coins_tip } : ChainstateManager).coins_tip := hkept.disconnect_loop hself hdisconnect
    have hloop := hkept.connect_loop env block_reader just_connected (self.build_chain_path best_idx)
      (ChainstateManager.heights_up (self.find_fork_height (self.build_chain_path best_idx) self.chain.height)
        (self.entry best_idx).height) hdown
    split
    · next heq =>
      rw [heq] at hloop
      exact hloop
    · next heq =>
      rw [heq] at hloop
      exact hkept.set_best_block _ hloop

theorem activate_best_chain {self : ChainstateManager} (block_reader : BlockReader) (just_connected : Option Nat)
    (hself : P self.coins_tip) : P (self.activate_best_chain env block_reader just_connected).2.coins_tip := by
  unfold ChainstateManager.activate_best_chain
  split
  · exact hself
  · split
    · exact hself
    · exact hkept.reorganize env block_reader just_connected _ hself

theorem process_body {self : ChainstateManager} (block : Block) (idx : Nat) (block_reader : BlockReader)
    (hself : P self.coins_tip) : P (self.process_body env block idx block_reader).2.coins_tip := by
  unfold ChainstateManager.process_body
  split
  · rw [ChainstateManager.mark_failed_coins_tip]
    exact hself
  · dsimp only
    split
    · rw [ChainstateManager.mark_failed_coins_tip]
      exact hself
    · have hreceived : P (self.receive_data block idx).coins_tip := hself
      have hconnect := hkept.connect_block env block ((self.receive_data block idx).entry idx).height
        (self.receive_data block idx).params.consensus
        (some ((self.receive_data block idx).mtp_lookup block.header.time.toNat))
        ((self.receive_data block idx).should_skip_scripts idx) hreceived
      unfold ChainstateManager.connect_new_block
      split
      · next heq =>
        rw [heq] at hconnect
        rw [ChainstateManager.mark_failed_coins_tip]
        exact hconnect
      · next coins_tip heq =>
        rw [heq] at hconnect
        have hmarked : P ((self.receive_data block idx).connected idx coins_tip).coins_tip := by
          rw [ChainstateManager.connected_coins_tip]
          exact hconnect
        have hactivate := hkept.activate_best_chain env block_reader (some idx) hmarked
        unfold ChainstateManager.connected at hactivate
        split
        · next hbest =>
          rw [hbest] at hactivate
          exact hactivate
        · next hbest =>
          rw [hbest] at hactivate
          exact hactivate

theorem process_new_block {self : ChainstateManager} (block : Block) (now : Int) (block_reader : BlockReader)
    (hself : P self.coins_tip) : P (self.process_new_block env block now block_reader).2.coins_tip := by
  have hheader := (self.accept_block_header_frame env block.header now).2.2.1
  unfold ChainstateManager.process_new_block
  split
  · next heq =>
    rw [heq] at hheader
    dsimp only at hheader ⊢
    rw [hheader]
    exact hself
  · next idx mid heq =>
    rw [heq] at hheader
    have hmid : P mid.coins_tip := hheader ▸ hself
    split
    · exact hmid
    · exact hkept.process_body env block idx block_reader hmid

end KeptByChain

end qubitcoin.chainstate
