import Qubitcoin.Chainstate.Manager
import Qubitcoin.Chain.ActiveChain
import Qubitcoin.Validation.Rejected
import Qubitcoin.Validation.Disconnect

/-! What processing a block can do to the block index: a header appends an entry,
    and after that only the status, the counts and the positions change, with every
    change recorded as dirty. -/

open qubitcoin primitives transaction block coins params validation_state chain chainparams
  qubitcoin.validation parentTree

namespace qubitcoin.chainstate

namespace ChainstateManager

def arena (self : ChainstateManager) : List BlockIndex := self.block_index.indices

theorem getElem?_modify_eq (arena : List BlockIndex) (idx i : Nat) (update : BlockIndex → BlockIndex) :
    (arena.modify idx update)[i]? = (arena[i]?).map fun index => if idx = i then update index else index := by
  rw [List.getElem?_modify]
  split <;> simp

/-- Entries keep their fixed fields, and those that change are dirty. -/
structure Updates (before after : ChainstateManager) : Prop where
  params : after.params = before.params
  assume_valid : after.assume_valid = before.assume_valid
  fixed : after.arena.map BlockIndex.fixed = before.arena.map BlockIndex.fixed
  by_hash : after.block_index.by_hash = before.block_index.by_hash
  dirty : before.dirty_indices ⊆ after.dirty_indices
  clean : ∀ i, i ∉ after.dirty_indices → after.arena[i]? = before.arena[i]?

namespace Updates

theorem refl (self : ChainstateManager) : Updates self self :=
  ⟨rfl, rfl, rfl, rfl, Finset.Subset.refl _, fun _ _ => rfl⟩

theorem trans {first second third : ChainstateManager} (hleft : Updates first second)
    (hright : Updates second third) : Updates first third where
  params := hright.params.trans hleft.params
  assume_valid := hright.assume_valid.trans hleft.assume_valid
  fixed := hright.fixed.trans hleft.fixed
  by_hash := hright.by_hash.trans hleft.by_hash
  dirty := hleft.dirty.trans hright.dirty
  clean i hi := (hright.clean i hi).trans (hleft.clean i fun hmem => hi (hright.dirty hmem))

theorem length {before after : ChainstateManager} (hupdates : Updates before after) :
    after.arena.length = before.arena.length := by
  simpa using congrArg List.length hupdates.fixed

theorem parent_of {before after : ChainstateManager} (hupdates : Updates before after) :
    chain.parent_of after.arena = chain.parent_of before.arena := parent_of_fixed hupdates.fixed

theorem height_of {before after : ChainstateManager} (hupdates : Updates before after) :
    chain.height_of after.arena = chain.height_of before.arena := height_of_fixed hupdates.fixed

theorem update_entry (self : ChainstateManager) (idx : Nat) {update : BlockIndex → BlockIndex}
    (hfixed : ∀ index, (update index).fixed = index.fixed) : Updates self (self.update_entry idx update) where
  params := rfl
  assume_valid := rfl
  fixed := by
    apply List.ext_getElem?
    intro i
    rw [List.getElem?_map, List.getElem?_map]
    have hget := getElem?_modify_eq self.arena idx i update
    refine (congrArg (Option.map BlockIndex.fixed) hget).trans ?_
    rw [Option.map_map]
    congr 1
    funext index
    by_cases heq : idx = i
    · simp [heq, hfixed]
    · simp [heq]
  by_hash := rfl
  dirty := Finset.subset_insert _ _
  clean i hi := by
    have hne : idx ≠ i := fun heq => hi (heq ▸ Finset.mem_insert_self _ _)
    refine (getElem?_modify_eq self.arena idx i update).trans ?_
    simp [hne]

theorem of_index_eq {before after : ChainstateManager} (hparams : after.params = before.params)
    (hassume : after.assume_valid = before.assume_valid) (hindex : after.block_index = before.block_index)
    (hdirty : after.dirty_indices = before.dirty_indices) : Updates before after where
  params := hparams
  assume_valid := hassume
  fixed := by rw [arena, arena, hindex]
  by_hash := by rw [hindex]
  dirty := by rw [hdirty]
  clean i _ := by rw [arena, arena, hindex]

end Updates

theorem mark_failed_updates (self : ChainstateManager) (idx : Nat) (e : Failure BlockValidationState) :
    Updates self (self.mark_failed idx e) := by
  cases e with
  | invalid state => exact .update_entry self idx fun _ => rfl
  | panic why => exact .refl self

@[simp] theorem mark_failed_coins_tip (self : ChainstateManager) (idx : Nat) (e : Failure BlockValidationState) :
    (self.mark_failed idx e).coins_tip = self.coins_tip := by
  cases e <;> rfl

theorem mark_connected_updates (self : ChainstateManager) (idx : Nat) :
    Updates self (self.mark_connected idx) := by
  have hentry : Updates self (self.update_entry idx fun index =>
      { index with status := index.status.raise_validity BlockStatus.VALID_SCRIPTS }) :=
    .update_entry self idx fun _ => rfl
  unfold mark_connected
  dsimp only
  split
  · exact hentry.trans (.of_index_eq rfl rfl rfl rfl)
  · exact hentry

theorem receive_data_updates (self : ChainstateManager) (block : Block) (idx : Nat) :
    Updates self (self.receive_data block idx) := .update_entry self idx fun _ => rfl

variable (env : Env)

theorem connect_at_updates (self : ChainstateManager) (block_reader : BlockReader) (h : Int) (idx : Nat) :
    Updates self (self.connect_at env block_reader h idx).2 := by
  unfold connect_at
  split
  · exact .refl self
  · next block undo hread =>
    split
    · next e coins_tip hconnect =>
      have hcoins : Updates self { self with coins_tip } := .of_index_eq rfl rfl rfl rfl
      exact hcoins.trans (mark_failed_updates _ idx e)
    · next undo coins_tip hconnect =>
      have hcoins : Updates self { self with coins_tip } := .of_index_eq rfl rfl rfl rfl
      split
      · exact hcoins
      · exact hcoins.trans (mark_connected_updates _ idx)

theorem connect_loop_updates (block_reader : BlockReader) (just_connected : Option Nat) (new_chain : List Nat)
    (heights : List Int) : ∀ self : ChainstateManager,
      Updates self (connect_loop env block_reader just_connected new_chain heights self).2 := by
  induction heights with
  | nil => exact fun self => .refl self
  | cons h rest ih =>
    intro self
    unfold connect_loop
    split
    · exact .refl self
    · next idx hat =>
      split
      · exact ih self
      · have hat := self.connect_at_updates env block_reader h idx
        split
        · next e after heq => rwa [heq] at hat
        · next after heq =>
          rw [heq] at hat
          exact hat.trans (ih after)

theorem reorganize_updates (self : ChainstateManager) (block_reader : BlockReader) (just_connected : Option Nat)
    (best_idx : Nat) : Updates self (self.reorganize env block_reader just_connected best_idx).2 := by
  unfold reorganize
  dsimp only
  split
  · exact .refl self
  · next coins_tip hdisconnect =>
    have hcoins : Updates self { self with coins_tip } := .of_index_eq rfl rfl rfl rfl
    have hloop := connect_loop_updates env block_reader just_connected (self.build_chain_path best_idx)
      (heights_up (self.find_fork_height (self.build_chain_path best_idx) self.chain.height)
        (self.entry best_idx).height) { self with coins_tip }
    split
    · next e after heq =>
      rw [heq] at hloop
      exact hcoins.trans hloop
    · next after heq =>
      rw [heq] at hloop
      exact (hcoins.trans hloop).trans (.of_index_eq rfl rfl rfl rfl)

theorem activate_best_chain_updates (self : ChainstateManager) (block_reader : BlockReader)
    (just_connected : Option Nat) :
    Updates self (self.activate_best_chain env block_reader just_connected).2 := by
  unfold activate_best_chain
  split
  · exact .refl self
  · split
    · exact .refl self
    · exact self.reorganize_updates env block_reader just_connected _

/-- The manager once a block is connected to the coins, before the choice of the
    best chain. -/
def connected (self : ChainstateManager) (idx : Nat) (coins_tip : CoinsViewCache) : ChainstateManager :=
  { self with coins_tip }.mark_connected idx

/-- The ways through `process_new_block`, with what it returns and leaves: a refused
    header, a block that is connected already, a refused body (in or without its
    context), a refused connection, and the activation of the best chain. -/
inductive Processed (self : ChainstateManager) (block : Block) (now : Int) (block_reader : BlockReader) :
    Except (Failure BlockValidationState) (Bool × Option BlockUndo) → ChainstateManager → Prop where
  | header {e : Failure BlockValidationState}
      (hheader : self.accept_block_header env block.header now = (.error e, self)) :
      Processed self block now block_reader (.error e) self
  | known {idx : Nat} {mid : ChainstateManager}
      (hheader : self.accept_block_header env block.header now = (.ok idx, mid))
      (hknown : mid.is_connected idx = true) :
      Processed self block now block_reader (.ok (decide (mid.chain.tip = some idx), none)) mid
  | body {idx : Nat} {mid : ChainstateManager} {e : Failure BlockValidationState}
      (hheader : self.accept_block_header env block.header now = (.ok idx, mid))
      (hknown : mid.is_connected idx = false) (hbody : check_block env block mid.params.consensus true = .error e) :
      Processed self block now block_reader (.error e) (mid.mark_failed idx e)
  | context {idx : Nat} {mid : ChainstateManager} {e : Failure BlockValidationState}
      (hheader : self.accept_block_header env block.header now = (.ok idx, mid))
      (hknown : mid.is_connected idx = false) (hbody : check_block env block mid.params.consensus true = .ok ())
      (hcontext : (mid.receive_data block idx).check_body_context env block idx = .error e) :
      Processed self block now block_reader (.error e) ((mid.receive_data block idx).mark_failed idx e)
  | connect {idx : Nat} {mid : ChainstateManager} {e : Failure BlockValidationState} {coins_tip : CoinsViewCache}
      (hheader : self.accept_block_header env block.header now = (.ok idx, mid))
      (hknown : mid.is_connected idx = false) (hbody : check_block env block mid.params.consensus true = .ok ())
      (hcontext : (mid.receive_data block idx).check_body_context env block idx = .ok ())
      (hconnect : (mid.receive_data block idx).connect_new_block env block idx = (.error e, coins_tip)) :
      Processed self block now block_reader (.error e)
        ({ mid.receive_data block idx with coins_tip }.mark_failed idx e)
  | activate {idx : Nat} {mid after : ChainstateManager} {undo : BlockUndo} {coins_tip : CoinsViewCache}
      {result : Except (Failure BlockValidationState) Unit}
      (hheader : self.accept_block_header env block.header now = (.ok idx, mid))
      (hknown : mid.is_connected idx = false) (hbody : check_block env block mid.params.consensus true = .ok ())
      (hcontext : (mid.receive_data block idx).check_body_context env block idx = .ok ())
      (hconnect : (mid.receive_data block idx).connect_new_block env block idx = (.ok undo, coins_tip))
      (hactivate : ((mid.receive_data block idx).connected idx coins_tip).activate_best_chain env block_reader
        (some idx) = (result, after)) :
      Processed self block now block_reader
        (result.map fun _ => (decide (after.chain.tip = some idx), some undo)) after

theorem accept_block_header_ok {self after : ChainstateManager} {header : BlockHeader} {now : Int} {idx : Nat}
    (haccept : self.accept_block_header env header now = (.ok idx, after)) :
    (self.block_index.find_by_hash (header.block_hash env.hash256) = some idx ∧ after = self) ∨
    (∃ prev_idx, self.block_index.find_by_hash (header.block_hash env.hash256) = none ∧
      self.check_new_header env header now = .ok prev_idx ∧ idx = self.arena.length ∧
      after = self.add_header env header prev_idx) := by
  unfold accept_block_header at haccept
  split at haccept
  · next hfound =>
    cases haccept
    exact .inl ⟨hfound, rfl⟩
  · next hfound =>
    split at haccept
    · cases haccept
    · next prev_idx hcheck =>
      cases haccept
      exact .inr ⟨prev_idx, hfound, hcheck, rfl, rfl⟩

theorem accept_block_header_frame (self : ChainstateManager) (header : BlockHeader) (now : Int) :
    (self.accept_block_header env header now).2.params = self.params ∧
    (self.accept_block_header env header now).2.chain = self.chain ∧
    (self.accept_block_header env header now).2.coins_tip = self.coins_tip ∧
    (self.accept_block_header env header now).2.assume_valid = self.assume_valid ∧
    (self.accept_block_header env header now).2.best_valid_tip = self.best_valid_tip := by
  unfold accept_block_header
  split
  · exact ⟨rfl, rfl, rfl, rfl, rfl⟩
  · split
    · exact ⟨rfl, rfl, rfl, rfl, rfl⟩
    · exact ⟨rfl, rfl, rfl, rfl, rfl⟩

theorem accept_block_header_error {self after : ChainstateManager} {header : BlockHeader} {now : Int}
    {e : Failure BlockValidationState} (haccept : self.accept_block_header env header now = (.error e, after)) :
    after = self := by
  unfold accept_block_header at haccept
  split at haccept
  · cases haccept
  · split at haccept
    · cases haccept
      rfl
    · cases haccept

theorem process_new_block_processed (self : ChainstateManager) (block : Block) (now : Int)
    (block_reader : BlockReader) :
    Processed env self block now block_reader (self.process_new_block env block now block_reader).1
      (self.process_new_block env block now block_reader).2 := by
  unfold process_new_block
  split
  · next e after hheader =>
    obtain rfl := accept_block_header_error env hheader
    exact .header hheader
  · next idx mid hheader =>
    split
    · next hknown => exact .known hheader hknown
    · next hknown =>
      have hknown : mid.is_connected idx = false := by simpa using hknown
      unfold process_body
      split
      · next e hbody => exact .body hheader hknown hbody
      · next hbody =>
        dsimp only
        split
        · next e hcontext => exact .context hheader hknown hbody hcontext
        · next hcontext =>
          split
          · next e coins_tip hconnect => exact .connect hheader hknown hbody hcontext hconnect
          · next undo coins_tip hconnect =>
            split
            · next e after hactivate => exact .activate hheader hknown hbody hcontext hconnect hactivate
            · next after hactivate => exact .activate hheader hknown hbody hcontext hconnect hactivate

theorem Processed.updates {self after : ChainstateManager} {block : Block} {now : Int}
    {block_reader : BlockReader} {result : Except (Failure BlockValidationState) (Bool × Option BlockUndo)}
    (hprocessed : Processed env self block now block_reader result after) :
    Updates (self.accept_block_header env block.header now).2 after := by
  cases hprocessed with
  | header hheader =>
    rw [hheader]
    exact .refl self
  | known hheader _ =>
    rw [hheader]
    exact .refl _
  | body hheader _ _ =>
    rw [hheader]
    exact mark_failed_updates _ _ _
  | context hheader _ _ _ =>
    rw [hheader]
    exact (receive_data_updates _ _ _).trans (mark_failed_updates _ _ _)
  | @connect idx mid e coins_tip hheader _ _ _ _ =>
    rw [hheader]
    have hcoins : Updates (mid.receive_data block idx) { mid.receive_data block idx with coins_tip } :=
      .of_index_eq rfl rfl rfl rfl
    exact ((receive_data_updates mid block idx).trans hcoins).trans (mark_failed_updates _ _ _)
  | @activate idx mid after undo coins_tip result hheader _ _ _ _ hactivate =>
    rw [hheader]
    have hcoins : Updates (mid.receive_data block idx) { mid.receive_data block idx with coins_tip } :=
      .of_index_eq rfl rfl rfl rfl
    have hlast := activate_best_chain_updates env ((mid.receive_data block idx).connected idx coins_tip)
      block_reader (some idx)
    rw [hactivate] at hlast
    exact (((receive_data_updates mid block idx).trans hcoins).trans (mark_connected_updates _ _)).trans hlast

/-- The state in which a block gets to its connection to the coins, with its
    entry; `none` if `process_new_block` returns before. -/
def at_connect (self : ChainstateManager) (block : Block) (now : Int) : Option (Nat × ChainstateManager) :=
  match self.accept_block_header env block.header now with
  | (.error _, _) => none
  | (.ok idx, self) =>
    if self.is_connected idx then none
    else
      match check_block env block self.params.consensus true with
      | .error _ => none
      | .ok () =>
        match (self.receive_data block idx).check_body_context env block idx with
        | .error _ => none
        | .ok () => some (idx, self.receive_data block idx)

theorem at_connect_eq_some {self after : ChainstateManager} {block : Block} {now : Int} {idx : Nat} :
    self.at_connect env block now = some (idx, after) ↔ ∃ mid,
      self.accept_block_header env block.header now = (.ok idx, mid) ∧ mid.is_connected idx = false ∧
      check_block env block mid.params.consensus true = .ok () ∧
      (mid.receive_data block idx).check_body_context env block idx = .ok () ∧ after = mid.receive_data block idx := by
  unfold at_connect
  constructor
  · intro hat
    split at hat
    · cases hat
    · next other mid hheader =>
      split at hat
      · cases hat
      · next hknown =>
        split at hat
        · cases hat
        · next hbody =>
          split at hat
          · cases hat
          · next hcontext =>
            cases hat
            exact ⟨mid, hheader, by simpa using hknown, hbody, hcontext, rfl⟩
  · rintro ⟨mid, hheader, hknown, hbody, hcontext, rfl⟩
    simp only [hheader, hknown, hbody, hcontext, Bool.false_eq_true, if_false]

theorem at_connect_frame {self mid : ChainstateManager} {block : Block} {now : Int} {idx : Nat}
    (hat : self.at_connect env block now = some (idx, mid)) :
    mid.params = self.params ∧ mid.chain = self.chain ∧ mid.coins_tip = self.coins_tip ∧
      mid.assume_valid = self.assume_valid ∧ mid.best_valid_tip = self.best_valid_tip := by
  obtain ⟨start, hheader, _, _, _, rfl⟩ := (at_connect_eq_some env).mp hat
  have hframe := self.accept_block_header_frame env block.header now
  rw [hheader] at hframe
  exact hframe

end ChainstateManager

end qubitcoin.chainstate

/-! What the rejection of a block at its connection leaves of the coins. -/

open qubitcoin.script

namespace qubitcoin.chainstate

open ChainstateManager

variable (env : Env)

theorem process_new_block_rejected {self mid : ChainstateManager} {block : Block} {now : Int} {idx : Nat}
    {e : Failure BlockValidationState} {coins_tip : CoinsViewCache} (block_reader : BlockReader)
    (hreach : self.at_connect env block now = some (idx, mid))
    (hreject : mid.connect_new_block env block idx = (.error e, coins_tip)) :
    self.process_new_block env block now block_reader = (.error e, { mid with coins_tip }.mark_failed idx e) := by
  obtain ⟨start, hheader, hknown, hbody, hcontext, rfl⟩ := (at_connect_eq_some env).mp hreach
  unfold process_new_block
  rw [hheader]
  dsimp only
  rw [hknown, if_neg (by simp)]
  unfold process_body
  simp only [hbody, hcontext, hreject]

/-- The coins are left alone exactly by the blocks of `LeavesCoins`. The converse
    is about a coherent view and a block whose payments do not recreate what they
    spend. -/
theorem rejected_block_leaves_coins {self mid : ChainstateManager} {block : Block} {now : Int}
    (block_reader : BlockReader) {idx : Nat} {state : BlockValidationState} {coins_tip : CoinsViewCache}
    (hreach : self.at_connect env block now = some (idx, mid))
    (hreject : mid.connect_new_block env block idx = (.error (.invalid state), coins_tip)) :
    (LeavesCoins env self.coins_tip.visible block (mid.entry idx).height self.params.consensus
        (some (mid.mtp_lookup block.header.time.toNat)) →
      (self.process_new_block env block now block_reader).2.coins_tip.visible = self.coins_tip.visible) ∧
    (IntType.i32.fits (mid.entry idx).height → self.coins_tip.Coherent → Acyclic block.vtx.tail →
      (self.process_new_block env block now block_reader).2.coins_tip.visible = self.coins_tip.visible →
      LeavesCoins env self.coins_tip.visible block (mid.entry idx).height self.params.consensus
        (some (mid.mtp_lookup block.header.time.toNat))) := by
  obtain ⟨hparams, _, hcoins, _⟩ := at_connect_frame env hreach
  obtain ⟨start, _, _, hbody, _, _⟩ := (at_connect_eq_some env).mp hreach
  rw [process_new_block_rejected env block_reader hreach hreject, mark_failed_coins_tip]
  unfold connect_new_block at hreject
  rw [hcoins, hparams] at hreject
  exact connect_block_rejected env (check_block_ok env hbody) hreject

def regtest_genesis : Block := ChainParams.regtest.create_genesis_block Env.op_true.hash256

/-- A manager over an empty database that has loaded genesis. -/
def regtest_manager : ChainstateManager :=
  match (ChainstateManager.new .regtest ⟨∅, 0⟩).load_genesis_block .op_true regtest_genesis with
  | .ok manager => manager
  | .error _ => .new .regtest ⟨∅, 0⟩

/-- A block on top of another, ten minutes later. -/
def regtest_block (prev : Block) (txs : List Transaction) (nonce : UInt32) : Block :=
  ⟨⟨4, prev.block_hash Env.op_true.hash256, (merkle.block_merkle_root Env.op_true.hash256 txs).1,
    prev.header.time + 600, 0x207fffff, nonce⟩, txs⟩

def regtest_now : Int := 1400000000

/-- A coinbase for height one that claims one unit too much, in an output that can
    be spent or not. -/
def greedy_coinbase (script : Script) : Transaction :=
  .new Env.op_true.hash256 1 [⟨.null, ⟨[0x51, 0x01]⟩, SEQUENCE_FINAL, .new⟩] [⟨5000000001, script⟩] 0

def greedy_block (script : Script) (nonce : UInt32) : Block :=
  regtest_block regtest_genesis [greedy_coinbase script] nonce

def greedy_rejection : BlockValidationState :=
  .invalid .Consensus "bad-cb-amount" "coinbase pays too much (actual=5000000001 vs limit=5000000000)"

theorem rejected_of_run {block : Block} {state : BlockValidationState}
    (hrun : ((regtest_manager.at_connect .op_true block regtest_now).map fun reached =>
      (reached.2.connect_new_block .op_true block reached.1).1) = some (.error (.invalid state))) :
    ∃ idx mid coins_tip, regtest_manager.at_connect .op_true block regtest_now = some (idx, mid) ∧
      mid.connect_new_block .op_true block idx = (.error (.invalid state), coins_tip) := by
  obtain ⟨⟨idx, mid⟩, hreach, hreject⟩ := Option.map_eq_some_iff.mp hrun
  exact ⟨idx, mid, _, hreach, Prod.ext hreject rfl⟩

theorem greedy_block_facts :
    ((regtest_manager.at_connect .op_true (greedy_block ⟨[0x6a]⟩ 1) regtest_now).map fun reached =>
      (reached.2.connect_new_block .op_true (greedy_block ⟨[0x6a]⟩ 1) reached.1).1) =
        some (.error (.invalid greedy_rejection)) ∧
    ((regtest_manager.at_connect .op_true (greedy_block op_true 0) regtest_now).map fun reached =>
      (reached.2.connect_new_block .op_true (greedy_block op_true 0) reached.1).1) =
        some (.error (.invalid greedy_rejection)) ∧
    (regtest_manager.process_new_block .op_true (greedy_block op_true 0) regtest_now none).2.coins_tip.visible
        ⟨(greedy_coinbase op_true).txid, 0⟩ ≠
      regtest_manager.coins_tip.visible ⟨(greedy_coinbase op_true).txid, 0⟩ := by
  decide +kernel

/-- An output that cannot be spent is not added, so nothing is left behind. -/
theorem rejected_block_leaves_coins_unspendable :
    (regtest_manager.process_new_block .op_true (greedy_block ⟨[0x6a]⟩ 1) regtest_now none).2.coins_tip.visible =
      regtest_manager.coins_tip.visible := by
  obtain ⟨hrun, _⟩ := greedy_block_facts
  obtain ⟨idx, mid, coins_tip, hreach, hreject⟩ := rejected_of_run hrun
  refine (rejected_block_leaves_coins .op_true none hreach hreject).1 (.inr fun coinbase hmem => ?_)
  cases hmem
  refine ⟨fun entry hentry hspendable => ?_, nofun⟩
  rw [show outpoints _ = [_] from rfl, List.mem_singleton] at hentry
  subst hentry
  exact absurd hspendable (by decide)

/-- A coinbase that claims too much stays among the coins after its rejection. -/
theorem rejected_block_leaves_coins_fails :
    ∃ idx mid coins_tip,
      regtest_manager.at_connect .op_true (greedy_block op_true 0) regtest_now = some (idx, mid) ∧
      mid.connect_new_block .op_true (greedy_block op_true 0) idx =
        (.error (.invalid greedy_rejection), coins_tip) ∧
      (regtest_manager.process_new_block .op_true (greedy_block op_true 0) regtest_now none).2.coins_tip.visible ≠
        regtest_manager.coins_tip.visible := by
  obtain ⟨_, hrun, hseen⟩ := greedy_block_facts
  obtain ⟨idx, mid, coins_tip, hreach, hreject⟩ := rejected_of_run hrun
  exact ⟨idx, mid, coins_tip, hreach, hreject, fun hsame => hseen (congrFun hsame _)⟩

end qubitcoin.chainstate
