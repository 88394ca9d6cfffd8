import Qubitcoin.Chainstate.Marked

/-! Chains without side branches: as long as every block that is connected extends the active
    tip, no block off the active chain is fully valid. -/

open qubitcoin primitives transaction block coins chain validation_state chainparams
  qubitcoin.validation parentTree

namespace qubitcoin.chainstate

namespace ChainstateManager

variable {self : ChainstateManager}

/-- The entries of a manager are those of a later one, with their paths. -/
structure Within (before after : ChainstateManager) : Prop where
  length : before.arena.length ≤ after.arena.length
  block_hash : ∀ {idx : Nat}, idx < before.arena.length → (after.entry idx).block_hash = (before.entry idx).block_hash
  path : ∀ {idx : Nat} {path : List Nat}, AncestorPath before.arena idx path → AncestorPath after.arena idx path

theorem Within.refl (self : ChainstateManager) : Within self self := ⟨le_rfl, fun _ => rfl, id⟩

theorem Within.trans {first second third : ChainstateManager} (hleft : Within first second)
    (hright : Within second third) : Within first third := by
  refine ⟨hleft.length.trans hright.length, fun hlt => ?_, fun hpath => hright.path (hleft.path hpath)⟩
  rw [hright.block_hash (hlt.trans_le hleft.length), hleft.block_hash hlt]

theorem Updates.within {after : ChainstateManager} (hupdates : Updates self after) : Within self after :=
  ⟨hupdates.length.ge, fun _ => hupdates.block_hash _, hupdates.path⟩

/-- Every fully valid block is on the active chain. -/
def Linear (self : ChainstateManager) : Prop :=
  ∀ idx < self.arena.length, self.valid_at idx = true → idx ∈ self.chain.chain

theorem Linear.of_updates (hlinear : self.Linear) {after : ChainstateManager} (hupdates : Updates self after)
    (hchain : after.chain = self.chain) (hvalid : ∀ idx, after.valid_at idx = true → self.valid_at idx = true) :
    after.Linear := by
  intro idx hlt hidx
  rw [hchain]
  rw [hupdates.length] at hlt
  exact hlinear idx hlt (hvalid idx hidx)

theorem Linear.mark_failed (hlinear : self.Linear) (idx : Nat) (e : Failure BlockValidationState) :
    (self.mark_failed idx e).Linear :=
  hlinear.of_updates (self.mark_failed_updates idx e) (mark_failed_chain idx e) fun i => valid_at_mark_failed idx i e

theorem Linear.receive_data (hlinear : self.Linear) (block : Block) (idx : Nat) : (self.receive_data block idx).Linear :=
  hlinear.of_updates (self.receive_data_updates block idx) rfl fun i hvalid => by
    rwa [valid_at_receive_data] at hvalid

variable (env : Env)

theorem Linear.accept_block_header (hlinear : self.Linear) (hindexed : self.Indexed) (header : BlockHeader) (now : Int) :
    (self.accept_block_header env header now).2.Linear ∧ Within self (self.accept_block_header env header now).2 := by
  cases haccept : self.accept_block_header env header now with
  | mk result after =>
    cases result with
    | error e =>
      obtain rfl := accept_block_header_error env haccept
      exact ⟨hlinear, .refl _⟩
    | ok idx =>
      obtain ⟨_, rfl⟩ | ⟨prev_idx, _, hcheck, rfl, rfl⟩ := accept_block_header_ok env haccept
      · exact ⟨hlinear, .refl _⟩
      · have hprev := hindexed.find_lt (check_new_header_ok env hcheck).1
        obtain ⟨skip, harena, _⟩ := hindexed.add_header_arena env header hprev
        have hlength : (self.add_header env header prev_idx).arena.length = self.arena.length + 1 := by
          rw [harena, List.length_append, List.length_singleton]
        have hentry : ∀ {i : Nat}, i < self.arena.length →
            (self.add_header env header prev_idx).entry i = self.entry i :=
          fun hlt => hindexed.entry_add_header env header hprev hlt
        have hle : self.arena.length ≤ (self.add_header env header prev_idx).arena.length := by omega
        refine ⟨fun i _ hvalid => ?_, hle, fun hlt => by rw [hentry hlt], hindexed.path_add_header env header hprev⟩
        obtain ⟨hin, hvalid⟩ := hindexed.valid_at_add_header env hprev hvalid
        exact hlinear i hin hvalid

theorem Linear.process_new_block (hlinear : self.Linear) (hheaded : self.Headed) {block : Block} {now : Int}
    (block_reader : BlockReader) (hextends : self.ExtendsTip env block now) :
    (self.process_new_block env block now block_reader).2.Linear ∧
      Within self (self.process_new_block env block now block_reader).2 := by
  have hstart := hlinear.accept_block_header env hheaded.toIndexed block.header now
  have hmid : ∀ {idx mid}, self.accept_block_header env block.header now = (.ok idx, mid) →
      mid.Linear ∧ Within self mid := by
    intro idx mid hheader
    rw [hheader] at hstart
    exact hstart
  have hprocessed := self.process_new_block_processed env block now block_reader
  generalize (self.process_new_block env block now block_reader).1 = result at hprocessed
  generalize (self.process_new_block env block now block_reader).2 = after at hprocessed ⊢
  cases hprocessed with
  | header _ => exact ⟨hlinear, .refl _⟩
  | known hheader _ => exact hmid hheader
  | @body idx mid e hheader _ _ =>
    obtain ⟨hkept, hwithin⟩ := hmid hheader
    exact ⟨hkept.mark_failed idx e, hwithin.trans (mid.mark_failed_updates idx e).within⟩
  | @context idx mid e hheader _ _ _ =>
    obtain ⟨hkept, hwithin⟩ := hmid hheader
    refine ⟨(hkept.receive_data block idx).mark_failed idx e, hwithin.trans ?_⟩
    exact ((mid.receive_data_updates block idx).trans (mark_failed_updates _ idx e)).within
  | @connect idx mid e coins_tip hheader _ _ _ _ =>
    obtain ⟨hkept, hwithin⟩ := hmid hheader
    have hcoins : { mid.receive_data block idx with coins_tip }.Linear := hkept.receive_data block idx
    have hupdates : Updates mid { mid.receive_data block idx with coins_tip } :=
      (mid.receive_data_updates block idx).trans (.of_index_eq rfl rfl rfl rfl)
    exact ⟨hcoins.mark_failed idx e, hwithin.trans (hupdates.trans (mark_failed_updates _ idx e)).within⟩
  | @activate idx mid after undo coins_tip result hheader hknown hcheck hcontext hconnect hactivate =>
    obtain ⟨hkept, hwithin⟩ := hmid hheader
    obtain ⟨hreceived, _, _, _⟩ := hheaded.received env hheader
    have hreach : self.at_connect env block now = some (idx, mid.receive_data block idx) :=
      (at_connect_eq_some env).mpr ⟨mid, hheader, hknown, hcheck, hcontext, rfl⟩
    obtain ⟨_, hchain, _⟩ := at_connect_frame env hreach
    have hstep := hextends idx _ hreach
    rw [hconnect] at hstep
    obtain ⟨tip, htip, hparent, hmore⟩ := hstep
    obtain ⟨hrun, hafter, hafter_tip, _⟩ :=
      hreceived.activate_child env block_reader coins_tip (hchain ▸ htip) hparent hmore
    rw [hrun] at hactivate
    cases hactivate
    obtain ⟨hupdates, hsame_chain, hothers⟩ := (mid.receive_data block idx).connected_frame idx coins_tip
    have hreset : Within ((mid.receive_data block idx).connected idx coins_tip)
        (((mid.receive_data block idx).connected idx coins_tip).reset_active_chain_to idx) := ⟨le_rfl, fun _ => rfl, id⟩
    have hwithin_after : Within (mid.receive_data block idx)
        (((mid.receive_data block idx).connected idx coins_tip).reset_active_chain_to idx) :=
      hupdates.within.trans hreset
    -- The new chain is the old one and the block, which is the only one that becomes valid.
    obtain ⟨other, hpath, _⟩ := hreceived.tip
    obtain rfl : other = tip := Option.some.inj ((tip_of_path hpath).symm.trans (hchain ▸ htip))
    obtain ⟨last, hlast, _⟩ := hafter.tip
    obtain rfl : last = idx := Option.some.inj ((tip_of_path hlast).symm.trans hafter_tip)
    have hlt := (hreceived.tree.parent_lt hparent).2
    have hgrown := hlast.2.unique
      (hwithin_after.path ⟨hlt, hpath.2.child hreceived.tree.leveled hparent⟩).2
    refine ⟨fun i hi hvalid => ?_, hwithin.trans ((mid.receive_data_updates block last).within.trans hwithin_after)⟩
    rw [hgrown]
    by_cases hne : i = last
    · exact List.mem_append_right _ (List.mem_singleton.mpr hne)
    · refine List.mem_append_left _ (hkept.receive_data block last i ?_ ?_)
      · exact hupdates.length ▸ hi
      · rw [← hothers i hne]
        exact hvalid

end ChainstateManager

end qubitcoin.chainstate
