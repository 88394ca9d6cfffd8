import Qubitcoin.Chainstate.Marked
import Qubitcoin.Chainstate.Poison

/-! The verdicts on blocks: as long as every block that gets to its connection is a child of
    the active tip, they do not depend on the order in which the blocks are processed. -/

open qubitcoin primitives transaction block coins params check validation_state chain chainparams
  qubitcoin.validation parentTree transition

namespace qubitcoin.chain.BlockStatus

theorem has_failed_have_data (self : BlockStatus) : (self.insert HAVE_DATA).has_failed = self.has_failed := by
  unfold BlockStatus.has_failed
  rw [insert_and (by decide)]

theorem has_failed_raise {level : UInt32} (hlevel : level &&& FAILED_MASK = 0) (self : BlockStatus) :
    (self.raise_validity level).has_failed = self.has_failed := by
  unfold BlockStatus.has_failed
  rw [raise_validity_and (by decide) hlevel]

end qubitcoin.chain.BlockStatus

namespace qubitcoin.chainstate

namespace ChainstateManager

variable {self : ChainstateManager}

def failed_at (self : ChainstateManager) (idx : Nat) : Bool := (self.entry idx).status.has_failed

theorem failed_at_update_entry (self : ChainstateManager) (idx i : Nat) {update : BlockIndex → BlockIndex}
    (hstatus : ∀ index, (update index).status.has_failed = index.status.has_failed) :
    (self.update_entry idx update).failed_at i = self.failed_at i := by
  unfold failed_at
  rw [entry_update_entry]
  split
  · exact hstatus _
  · rfl

theorem failed_at_receive_data (self : ChainstateManager) (block : Block) (idx i : Nat) :
    (self.receive_data block idx).failed_at i = self.failed_at i := by
  refine self.failed_at_update_entry idx i fun index => ?_
  rw [BlockStatus.has_failed_raise (by decide), BlockStatus.has_failed_have_data]

theorem failed_at_connected (self : ChainstateManager) (idx i : Nat) (coins_tip : CoinsViewCache) :
    (self.connected idx coins_tip).failed_at i = self.failed_at i := by
  unfold failed_at connected
  rw [entry_mark_connected]
  split
  · exact BlockStatus.has_failed_raise (by decide) _
  · rfl

theorem failed_at_mark_failed {idx : Nat} (hlt : idx < self.arena.length) (e : Failure BlockValidationState) (i : Nat) :
    (self.mark_failed idx e).failed_at i = true ↔ self.failed_at i = true ∨ (i = idx ∧ ∃ state, e = .invalid state) := by
  unfold failed_at
  cases e with
  | panic why =>
    constructor
    · exact .inl
    · rintro (hfailed | ⟨_, _, heq⟩)
      · exact hfailed
      · cases heq
  | invalid state =>
    unfold mark_failed
    rw [entry_update_entry]
    split
    · next heq => exact iff_of_true (BlockStatus.has_failed_failed _) (.inr ⟨heq.1.symm, state, rfl⟩)
    · next hne => exact ⟨.inl, fun h => h.resolve_right fun ⟨heq, _⟩ => hne ⟨heq.symm, heq ▸ hlt⟩⟩

variable (env : Env)

/-- What is decided on the body of a known block that is not connected yet. -/
def verdict (self : ChainstateManager) (block : Block) (idx : Nat) : Except (Failure BlockValidationState) BlockUndo := do
  check_block env block self.params.consensus true
  (self.receive_data block idx).check_body_context env block idx
  ((self.receive_data block idx).connect_new_block env block idx).1

theorem verdict_of_check {block : Block} {idx : Nat} {e : Failure BlockValidationState}
    (hcheck : check_block env block self.params.consensus true = .error e) :
    self.verdict env block idx = .error e := by
  unfold verdict
  rw [hcheck]
  rfl

theorem verdict_of_context {block : Block} {idx : Nat} {e : Failure BlockValidationState}
    (hcheck : check_block env block self.params.consensus true = .ok ())
    (hcontext : (self.receive_data block idx).check_body_context env block idx = .error e) :
    self.verdict env block idx = .error e := by
  unfold verdict
  rw [hcheck, hcontext]
  rfl

theorem verdict_of_connect {block : Block} {idx : Nat}
    (hcheck : check_block env block self.params.consensus true = .ok ())
    (hcontext : (self.receive_data block idx).check_body_context env block idx = .ok ()) :
    self.verdict env block idx = ((self.receive_data block idx).connect_new_block env block idx).1 := by
  unfold verdict
  rw [hcheck, hcontext]
  rfl

/-- If the block gets to its connection, it is a child of the active tip. -/
def OnTip (self : ChainstateManager) (block : Block) (now : Int) : Prop :=
  ∀ idx mid, self.at_connect env block now = some (idx, mid) →
    ∃ tip, self.chain.tip = some tip ∧ parent_of mid.arena idx = some tip

/-- The conditions on a block that is processed: it is judged on top of its own ancestors, and
    it extends the tip or leaves the coins. -/
structure Sequential (manager : ChainstateManager) (block : Block) (now : Int) : Prop where
  on_tip : manager.OnTip env block now
  extends_tip : manager.ExtendsTip env block now

theorem hash_mem_of_is_connected {idx : Nat} (hknown : self.is_connected idx = true) :
    (self.entry idx).block_hash ∈ self.active_hashes := by
  unfold is_connected Chain.get_block_index at hknown
  obtain ⟨_, hat⟩ := Bool.and_eq_true_iff.mp hknown
  rw [beq_iff_eq] at hat
  split at hat
  · cases hat
  · exact List.mem_map_of_mem (List.mem_of_getElem? hat)

/-- A state of a run that started from a tree of blocks: over that tree, the coins are the
    replay of the active chain, whose blocks are those of one shelf. -/
structure Following (ready : ChainstateManager) (shelf : StoredBlocks) (manager : ChainstateManager) : Prop where
  replayed : manager.Replayed shelf
  parallel : Parallel ready manager
  empty : ∀ outpoint, manager.coins_tip.base.get_coin outpoint = none

theorem Updates.parallel {after : ChainstateManager} (hupdates : Updates self after) : Parallel self after :=
  ⟨hupdates.params, hupdates.assume_valid, hupdates.by_hash, hupdates.fixed⟩

theorem Parallel.path {left right : ChainstateManager} (hparallel : Parallel left right) {tip : Nat} {path : List Nat}
    (hpath : AncestorPath left.arena tip path) : AncestorPath right.arena tip path := by
  unfold AncestorPath
  rw [hparallel.length, parent_of_fixed hparallel.fixed, height_of_fixed hparallel.fixed]
  exact hpath

section

variable {ready left right : ChainstateManager} {shelf : StoredBlocks} {block : Block} {now later : Int} {idx : Nat}

theorem Following.same_coins (hleft : Following ready shelf left) (hright : Following ready shelf right) {tip : Nat}
    (hleft_tip : left.chain.tip = some tip) (hright_tip : right.chain.tip = some tip) :
    left.chain = right.chain ∧ left.coins_tip.visible = right.coins_tip.visible := by
  have hparallel := hleft.parallel.symm.trans hright.parallel
  obtain ⟨first, hleft_path, _⟩ := hleft.replayed.tip
  obtain ⟨second, hright_path, _⟩ := hright.replayed.tip
  obtain rfl : first = tip := Option.some.inj ((tip_of_path hleft_path).symm.trans hleft_tip)
  obtain rfl : second = first := Option.some.inj ((tip_of_path hright_path).symm.trans hright_tip)
  have hchain : left.chain = right.chain :=
    congrArg Chain.mk ((hparallel.path hleft_path).2.unique hright_path.2)
  refine ⟨hchain, ?_⟩
  have hhashes : left.active_hashes = right.active_hashes := by
    unfold active_hashes
    rw [hchain]
    exact List.map_congr_left fun i _ => (hparallel.block_hash i).symm
  have hcoins := hleft.replayed.coins
  rw [hhashes, hright.replayed.coins] at hcoins
  exact (Option.some.inj hcoins).symm

theorem Parallel.check_body_context {left right : ChainstateManager} (hparallel : Parallel left right) (block : Block)
    (idx : Nat) : right.check_body_context env block idx = left.check_body_context env block idx := by
  have hprev : (right.entry idx).prev = (left.entry idx).prev := (fixed_links (hparallel.entry_fixed idx)).1
  unfold ChainstateManager.check_body_context
  rw [hprev]
  cases (left.entry idx).prev with
  | none => rfl
  | some prev_idx =>
    dsimp only
    rw [hparallel.height, hparallel.median_time_past, hparallel.params]

theorem at_connect_of_checks (hfound : self.block_index.find_by_hash (block.block_hash env.hash256) = some idx)
    (hknown : self.is_connected idx = false) (hcheck : check_block env block self.params.consensus true = .ok ())
    (hcontext : (self.receive_data block idx).check_body_context env block idx = .ok ()) (now : Int) :
    self.at_connect env block now = some (idx, self.receive_data block idx) := by
  refine (at_connect_eq_some env).mpr ⟨self, ?_, hknown, hcheck, hcontext, rfl⟩
  have hheader : self.block_index.find_by_hash (block.header.block_hash env.hash256) = some idx := hfound
  unfold accept_block_header
  rw [hheader]

theorem ExtendsTip.returns (hextends : self.ExtendsTip env block now) {mid : ChainstateManager}
    (hreach : self.at_connect env block now = some (idx, mid)) : Returns (mid.connect_new_block env block idx).1 := by
  intro why heq
  have hstep := hextends _ _ hreach
  rw [heq] at hstep
  exact hstep

theorem Following.verdict_eq (hleft : Following ready shelf left) (hright : Following ready shelf right)
    (hfound : ready.block_index.find_by_hash (block.block_hash env.hash256) = some idx)
    (hleft_meets : left.Sequential env block now) (hright_meets : right.Sequential env block later)
    (hleft_new : left.is_connected idx = false) (hright_new : right.is_connected idx = false) :
    left.verdict env block idx = right.verdict env block idx := by
  have hreceived : Parallel (left.receive_data block idx) (right.receive_data block idx) :=
    ((left.receive_data_updates block idx).parallel.symm.trans (hleft.parallel.symm.trans hright.parallel)).trans
      (right.receive_data_updates block idx).parallel
  have hparams : right.params = left.params := hreceived.params
  have hcontexts := hreceived.check_body_context env block idx
  cases hcheck : check_block env block left.params.consensus true with
  | error e =>
    rw [verdict_of_check env hcheck, verdict_of_check env (hparams ▸ hcheck)]
  | ok _ =>
    have hright_check : check_block env block right.params.consensus true = .ok () := hparams ▸ hcheck
    cases hcontext : (left.receive_data block idx).check_body_context env block idx with
    | error e =>
      rw [verdict_of_context env hcheck hcontext, verdict_of_context env hright_check (hcontexts.trans hcontext)]
    | ok _ =>
      have hleft_reach := at_connect_of_checks env ((hleft.parallel.find_by_hash _).trans hfound) hleft_new hcheck
        hcontext now
      have hright_reach := at_connect_of_checks env ((hright.parallel.find_by_hash _).trans hfound) hright_new
        hright_check (hcontexts.trans hcontext) later
      obtain ⟨tip, hleft_tip, hleft_parent⟩ := hleft_meets.on_tip _ _ hleft_reach
      obtain ⟨other, hright_tip, hright_parent⟩ := hright_meets.on_tip _ _ hright_reach
      have hparent : parent_of (right.receive_data block idx).arena idx = some tip :=
        (congrFun (parent_of_fixed hreceived.fixed) idx).trans hleft_parent
      obtain rfl : other = tip := Option.some.inj (hright_parent.symm.trans hparent)
      obtain ⟨hchain, hvisible⟩ := hleft.same_coins hright hleft_tip hright_tip
      have hleft_returns := hleft_meets.extends_tip.returns env hleft_reach
      have hright_returns := hright_meets.extends_tip.returns env hright_reach
      rw [verdict_of_connect env hcheck hcontext, verdict_of_connect env hright_check (hcontexts.trans hcontext)]
      unfold connect_new_block at hleft_returns hright_returns ⊢
      rw [hreceived.height, hreceived.should_skip_scripts, hreceived.params, hreceived.mtp_lookup hchain.symm]
        at hright_returns ⊢
      exact connect_block_same env hleft.replayed.coherent hright.replayed.coherent
        (.of_empty hleft.empty block.vtx) (.of_empty hright.empty block.vtx) hvisible hleft_returns hright_returns

/-- What a step leaves of the marks and of the chain: a refused block is marked, and one that
    is connected is appended. -/
structure Decided (before after : ChainstateManager) (block : Block) (idx : Nat)
    (verdict : Except (Failure BlockValidationState) BlockUndo) : Prop where
  failed : ∀ i, after.failed_at i = true ↔
    before.failed_at i = true ∨ (i = idx ∧ ∃ state, verdict = .error (.invalid state))
  hashes : ∀ hash, hash ∈ after.active_hashes ↔
    hash ∈ before.active_hashes ∨ (hash = block.block_hash env.hash256 ∧ ∃ undo, verdict = .ok undo)

theorem store_block_shelved (hshelf : shelf (block.block_hash env.hash256) = some block)
    (result : Except (Failure BlockValidationState) (Bool × Option BlockUndo)) :
    store_block env shelf block result = shelf := by
  unfold store_block
  split
  · rw [← hshelf]
    exact Function.update_eq_self ..
  · rfl

theorem Decided.of_failed {mid : ChainstateManager} (hupdates : Updates self mid) (hchain : mid.chain = self.chain)
    (hfailed : ∀ i, mid.failed_at i = self.failed_at i) (hlt : idx < self.arena.length)
    {verdict : Except (Failure BlockValidationState) BlockUndo} {e : Failure BlockValidationState}
    (hverdict : verdict = .error e) : Decided env self (mid.mark_failed idx e) block idx verdict := by
  subst hverdict
  refine ⟨fun i => ?_, fun hash => ?_⟩
  · rw [failed_at_mark_failed (hupdates.length ▸ hlt), hfailed]
    simp only [Except.error.injEq]
  · have hhashes : (mid.mark_failed idx e).active_hashes = self.active_hashes :=
      (hupdates.trans (mid.mark_failed_updates idx e)).active_hashes ((mark_failed_chain idx e).trans hchain)
    rw [hhashes]
    simp

theorem Following.process_new_block (hfollowing : Following ready shelf self) (block_reader : BlockReader)
    (hfound : ready.block_index.find_by_hash (block.block_hash env.hash256) = some idx)
    (hshelf : shelf (block.block_hash env.hash256) = some block) (hmeets : self.Sequential env block now)
    (hnew : block.block_hash env.hash256 ∉ self.active_hashes) :
    self.is_connected idx = false ∧ Following ready shelf (self.process_new_block env block now block_reader).2 ∧
      Decided env self (self.process_new_block env block now block_reader).2 block idx (self.verdict env block idx) := by
  have hself_found : self.block_index.find_by_hash (block.block_hash env.hash256) = some idx :=
    (hfollowing.parallel.find_by_hash _).trans hfound
  have hlt := hfollowing.replayed.find_lt hself_found
  have hhash : (self.entry idx).block_hash = block.block_hash env.hash256 := by
    obtain ⟨index, hat, hhash⟩ := hfollowing.replayed.by_hash.mp hself_found
    rw [entry_eq hat]
    exact hhash
  have hknown : self.is_connected idx = false :=
    Bool.eq_false_iff.mpr fun hknown => hnew (hhash ▸ hash_mem_of_is_connected hknown)
  have hheader : self.accept_block_header env block.header now = (.ok idx, self) := by
    have hheader_found : self.block_index.find_by_hash (block.header.block_hash env.hash256) = some idx := hself_found
    unfold accept_block_header
    rw [hheader_found]
  obtain ⟨hreplayed, hbase⟩ := hfollowing.replayed.process_new_block env block_reader
    (fun _ => .of_empty hfollowing.empty block.vtx) hmeets.extends_tip
  rw [store_block_shelved env hshelf] at hreplayed
  have hprocessed := self.process_new_block_processed env block now block_reader
  have hupdates := hprocessed.updates env
  rw [hheader] at hupdates
  refine ⟨hknown, ⟨hreplayed, hfollowing.parallel.trans hupdates.parallel, ?_⟩, ?_⟩
  · rw [hbase]
    exact hfollowing.empty
  generalize (self.process_new_block env block now block_reader).1 = result at hprocessed
  generalize (self.process_new_block env block now block_reader).2 = after at hprocessed
  have hreceived_updates := self.receive_data_updates block idx
  have hreceived_failed := self.failed_at_receive_data block idx
  cases hprocessed with
  | header hother =>
    rw [hheader] at hother
    cases hother
  | known hother hconnected =>
    rw [hheader] at hother
    cases hother
    rw [hknown] at hconnected
    cases hconnected
  | body hother _ hcheck =>
    rw [hheader] at hother
    cases hother
    exact .of_failed env (.refl self) rfl (fun _ => rfl) hlt (verdict_of_check env hcheck)
  | context hother _ hcheck hcontext =>
    rw [hheader] at hother
    cases hother
    exact .of_failed env hreceived_updates rfl hreceived_failed hlt (verdict_of_context env hcheck hcontext)
  | @connect _ _ e coins_tip hother _ hcheck hcontext hconnect =>
    rw [hheader] at hother
    cases hother
    have hcoins : Updates self { self.receive_data block idx with coins_tip } :=
      hreceived_updates.trans (.of_index_eq rfl rfl rfl rfl)
    refine .of_failed env hcoins rfl hreceived_failed hlt ?_
    rw [verdict_of_connect env hcheck hcontext, hconnect]
  | @activate _ _ after undo coins_tip result hother _ hcheck hcontext hconnect hactivate =>
    rw [hheader] at hother
    cases hother
    have hreach := at_connect_of_checks env hself_found hknown hcheck hcontext now
    have hstep := hmeets.extends_tip idx _ hreach
    rw [hconnect] at hstep
    obtain ⟨tip, htip, hparent, hmore⟩ := hstep
    obtain ⟨hrun, _, _, hhashes⟩ := (hfollowing.replayed.headed.receive_data block idx).activate_child env block_reader
      coins_tip htip hparent hmore
    rw [hrun] at hactivate
    cases hactivate
    have hverdict : self.verdict env block idx = .ok undo := by
      rw [verdict_of_connect env hcheck hcontext, hconnect]
    refine ⟨fun i => ?_, fun hash => ?_⟩
    · have hfailed := ((self.receive_data block idx).failed_at_connected idx i coins_tip).trans (hreceived_failed i)
      change ((self.receive_data block idx).connected idx coins_tip).failed_at i = true ↔ _
      rw [hfailed, hverdict]
      simp
    · rw [hhashes, hreceived_updates.active_hashes rfl, hreceived_updates.block_hash, hhash, List.mem_append,
        List.mem_singleton, hverdict]
      simp

theorem Following.set_pos (hfollowing : Following ready shelf self) (idx : Nat) {update : BlockIndex → BlockIndex}
    (hfixed : ∀ index, (update index).fixed = index.fixed) (hstatus : ∀ index, (update index).status = index.status) :
    Following ready shelf (self.update_entry idx update) ∧
      (∀ i, (self.update_entry idx update).failed_at i = self.failed_at i) ∧
      (self.update_entry idx update).active_hashes = self.active_hashes := by
  have hupdates : Updates self (self.update_entry idx update) := .update_entry self idx hfixed
  refine ⟨⟨Replayed.set_pos hfollowing.replayed idx hfixed hstatus, ?_, hfollowing.empty⟩, fun i => ?_,
    hupdates.active_hashes rfl⟩
  · exact hfollowing.parallel.trans hupdates.parallel
  · exact self.failed_at_update_entry idx i fun index => congrArg BlockStatus.has_failed (hstatus index)

theorem Following.same_tip (hleft : Following ready shelf left) (hright : Following ready shelf right)
    (hsame : ∀ hash, hash ∈ left.active_hashes ↔ hash ∈ right.active_hashes) :
    ∃ tip, left.chain.tip = some tip ∧ right.chain.tip = some tip := by
  have hparallel := hleft.parallel.symm.trans hright.parallel
  obtain ⟨tip, hpath, _⟩ := hleft.replayed.tip
  obtain ⟨other, hother, _⟩ := hright.replayed.tip
  have hcarried := hparallel.path hpath
  have hmem : ∀ {i : Nat}, i < right.arena.length →
      (i ∈ left.chain.chain ↔ i ∈ right.chain.chain) := by
    intro i hlt
    have hidx : ∀ {j : Nat}, j < right.arena.length → (right.entry j).block_hash = (right.entry i).block_hash → j = i :=
      fun hj hhash => hright.replayed.hash_injective (getElem?_entry hj) (getElem?_entry hlt) hhash
    have hhash := hsame (right.entry i).block_hash
    unfold active_hashes at hhash
    rw [List.mem_map, List.mem_map] at hhash
    constructor
    · intro hin
      obtain ⟨j, hj, heq⟩ := hhash.mp ⟨i, hin, (hparallel.block_hash i).symm⟩
      rw [← hidx (hright.replayed.mem_path_lt hother hj) heq]
      exact hj
    · intro hin
      obtain ⟨j, hj, heq⟩ := hhash.mpr ⟨i, hin, rfl⟩
      have hj_lt : j < right.arena.length := by
        rw [hright.parallel.length, ← hleft.parallel.length]
        exact hleft.replayed.mem_path_lt hpath hj
      rw [← hidx hj_lt ((hparallel.block_hash j).trans heq)]
      exact hj
  obtain rfl : tip = other := by
    refine hcarried.2.eq_of_mem hright.replayed.tree.leveled hother.2 ?_ ?_
    · exact (hmem hcarried.1).mp (List.mem_of_getLast? (tip_of_path hpath))
    · exact (hmem hother.1).mpr (List.mem_of_getLast? (tip_of_path hother))
  exact ⟨tip, tip_of_path hpath, tip_of_path hother⟩

end

end ChainstateManager

open ChainstateManager

variable (env : Env)

def Event.delivered : Event → Option Block
  | .block received _ _ => some received
  | _ => none

/-- The hashes of the blocks that a run delivers, in order. -/
def delivered_hashes (events : List Event) : List BlockHash :=
  (events.filterMap Event.delivered).map fun block => block.block_hash env.hash256

/-- A step that prepares a run: it delivers no block. -/
def PreparingStep (self : ChainstateManager) (event : Event) (next : ChainstateManager) : Prop :=
  event.delivered = none ∧ next = self.apply env event

/-- What happens along a run over a tree whose headers are known: blocks, each of them on top of
    its own ancestors, and positions. -/
def SequentialEvent (self : ChainstateManager) : Event → Prop
  | .block block now _ => self.Sequential env block now
  | .header _ _ => False
  | .assume_valid _ => False
  | .file_pos _ _ _ => True
  | .undo_pos _ _ => True

def SequentialStep (self : ChainstateManager) (event : Event) (next : ChainstateManager) : Prop :=
  SequentialEvent env self event ∧ next = self.apply env event

/-- A verdict on a block on top of its own ancestors, in some state over a tree. -/
def Judges (ready : ChainstateManager) (shelf : StoredBlocks) (block : Block)
    (verdict : Except (Failure BlockValidationState) BlockUndo) : Prop :=
  ∃ manager now idx, Following ready shelf manager ∧
    ready.block_index.find_by_hash (block.block_hash env.hash256) = some idx ∧
    manager.Sequential env block now ∧ manager.is_connected idx = false ∧ manager.verdict env block idx = verdict

section

variable {ready self last : ChainstateManager} {shelf : StoredBlocks} {block : Block}

theorem Judges.unique {verdict other : Except (Failure BlockValidationState) BlockUndo}
    (hjudges : Judges env ready shelf block verdict) (hother : Judges env ready shelf block other) : verdict = other := by
  obtain ⟨left, now, idx, hleft, hfound, hmeets, hnew, rfl⟩ := hjudges
  obtain ⟨right, later, other_idx, hright, hother_found, hother_meets, hother_new, rfl⟩ := hother
  obtain rfl : other_idx = idx := Option.some.inj (hother_found.symm.trans hfound)
  exact hleft.verdict_eq env hright hfound hmeets hother_meets hnew hother_new

theorem ChainstateManager.Following.positions (hfollowing : Following ready shelf self) {event : Event}
    (hnone : event.delivered = none) (hmeets : SequentialEvent env self event) :
    Following ready shelf (self.apply env event) ∧ (∀ i, (self.apply env event).failed_at i = self.failed_at i) ∧
      (self.apply env event).active_hashes = self.active_hashes := by
  cases event with
  | block block now block_reader => cases hnone
  | header header now => exact hmeets.elim
  | assume_valid hash => exact hmeets.elim
  | file_pos hash file data_pos =>
    unfold ChainstateManager.apply set_file_pos
    dsimp only
    split
    · next idx _ => exact hfollowing.set_pos idx (fun _ => rfl) fun _ => rfl
    · exact ⟨hfollowing, fun _ => rfl, rfl⟩
  | undo_pos hash undo_pos =>
    unfold ChainstateManager.apply set_undo_pos
    dsimp only
    split
    · next idx _ => exact hfollowing.set_pos idx (fun _ => rfl) fun _ => rfl
    · exact ⟨hfollowing, fun _ => rfl, rfl⟩

/-- The blocks of a run: known, on the shelf, and not on the active chain yet. -/
structure Deliverable (ready : ChainstateManager) (shelf : StoredBlocks) (manager : ChainstateManager) (block : Block) :
    Prop where
  known : ∃ idx, ready.block_index.find_by_hash (block.block_hash env.hash256) = some idx
  shelved : shelf (block.block_hash env.hash256) = some block
  new : block.block_hash env.hash256 ∉ manager.active_hashes

/-- At the end of a run the failed blocks are those that have a verdict against them, and the
    active chain has those that have one for them. -/
theorem ChainstateManager.Following.run {events : List Event} (hrun : Trace (SequentialStep env) self events last) :
    Following ready shelf self →
    (∀ block ∈ events.filterMap Event.delivered, Deliverable env ready shelf self block) →
    (delivered_hashes env events).Nodup →
    Following ready shelf last ∧
      (∀ i, last.failed_at i = true ↔ self.failed_at i = true ∨ ∃ block ∈ events.filterMap Event.delivered,
        ready.block_index.find_by_hash (block.block_hash env.hash256) = some i ∧
          ∃ state, Judges env ready shelf block (.error (.invalid state))) ∧
      ∀ hash, hash ∈ last.active_hashes ↔ hash ∈ self.active_hashes ∨ ∃ block ∈ events.filterMap Event.delivered,
        hash = block.block_hash env.hash256 ∧ ∃ undo, Judges env ready shelf block (.ok undo) := by
  induction hrun with
  | nil self =>
    intro hfollowing _ _
    refine ⟨hfollowing, fun i => ?_, fun hash => ?_⟩ <;> simp
  | @cons self next last event rest hstep hrest ih =>
    intro hfollowing hblocks hnodup
    obtain ⟨hmeets, rfl⟩ := hstep
    cases hdelivered : event.delivered with
    | none =>
      obtain ⟨hnext, hfailed, hhashes⟩ := hfollowing.positions env hdelivered hmeets
      unfold delivered_hashes at hnodup
      rw [List.filterMap_cons_none hdelivered] at hblocks hnodup ⊢
      obtain ⟨hlast, hlast_failed, hlast_hashes⟩ := ih hnext
        (fun block hmem => ⟨(hblocks block hmem).known, (hblocks block hmem).shelved, hhashes ▸ (hblocks block hmem).new⟩)
        hnodup
      refine ⟨hlast, fun i => ?_, fun hash => ?_⟩
      · rw [hlast_failed, hfailed]
      · rw [hlast_hashes, hhashes]
    | some block =>
      cases event with
      | header _ _ => cases hdelivered
      | file_pos _ _ _ => cases hdelivered
      | undo_pos _ _ => cases hdelivered
      | assume_valid _ => cases hdelivered
      | block block now block_reader =>
        cases hdelivered
        have hdelivered : (Event.block block now block_reader).delivered = some block := rfl
        unfold delivered_hashes at hnodup
        rw [List.filterMap_cons_some hdelivered] at hblocks hnodup ⊢
        rw [List.map_cons, List.nodup_cons] at hnodup
        have hblock := hblocks block List.mem_cons_self
        obtain ⟨idx, hfound⟩ := hblock.known
        obtain ⟨hknown, hnext, hdecided⟩ :=
          hfollowing.process_new_block env block_reader hfound hblock.shelved hmeets hblock.new
        have hjudged : Judges env ready shelf block (self.verdict env block idx) :=
          ⟨self, now, idx, hfollowing, hfound, hmeets, hknown, rfl⟩
        have hverdict : ∀ {verdict : Except (Failure BlockValidationState) BlockUndo},
            self.verdict env block idx = verdict ↔ Judges env ready shelf block verdict :=
          ⟨fun heq => heq ▸ hjudged, fun hother => hjudged.unique env hother⟩
        have hrest_blocks : ∀ other ∈ rest.filterMap Event.delivered, Deliverable env ready shelf
            (self.process_new_block env block now block_reader).2 other := by
          intro other hmem
          have hother := hblocks other (List.mem_cons_of_mem _ hmem)
          refine ⟨hother.known, hother.shelved, fun hin => ?_⟩
          obtain hin | ⟨heq, _⟩ := (hdecided.hashes _).mp hin
          · exact hother.new hin
          · exact hnodup.1 (heq ▸ List.mem_map_of_mem hmem)
        obtain ⟨hlast, hfailed, hhashes⟩ := ih hnext hrest_blocks hnodup.2
        refine ⟨hlast, fun i => ?_, fun hash => ?_⟩
        · have hsame : i = idx ↔ ready.block_index.find_by_hash (block.block_hash env.hash256) = some i := by
            rw [hfound, Option.some_inj, eq_comm]
          have hnext_failed := hdecided.failed i
          simp only [hverdict, hsame] at hnext_failed
          rw [hfailed]
          change (self.process_new_block env block now block_reader).2.failed_at i = true ∨ _ ↔ _
          rw [hnext_failed, or_assoc, List.exists_mem_cons_iff]
        · have hnext_hashes := hdecided.hashes hash
          simp only [hverdict] at hnext_hashes
          rw [hhashes]
          change hash ∈ (self.process_new_block env block now block_reader).2.active_hashes ∨ _ ↔ _
          rw [hnext_hashes, or_assoc, List.exists_mem_cons_iff]

theorem ChainstateManager.Headed.active_hashes_apply (hheaded : self.Headed) {event : Event}
    (hnone : event.delivered = none) : (self.apply env event).active_hashes = self.active_hashes := by
  cases event with
  | block block now block_reader => cases hnone
  | header header now => exact (hheaded.accept_block_header env header now).2
  | file_pos hash file data_pos => exact (hheaded.set_file_pos hash file data_pos).2
  | undo_pos hash undo_pos => exact (hheaded.set_undo_pos hash undo_pos).2
  | assume_valid hash => rfl

end

/-- The blocks of a tree above genesis, by their hash. -/
def tree_store (params : ChainParams) (blocks : List Block) : StoredBlocks := fun hash =>
  (blocks.find? fun block => block.block_hash env.hash256 == hash).or (genesis_store env params hash)

theorem tree_store_of_mem (params : ChainParams) {blocks : List Block} {block : Block} (hmem : block ∈ blocks)
    (hnodup : (blocks.map fun block => block.block_hash env.hash256).Nodup) :
    tree_store env params blocks (block.block_hash env.hash256) = some block := by
  unfold tree_store
  cases hfind : blocks.find? fun other => other.block_hash env.hash256 == block.block_hash env.hash256 with
  | none => exact absurd (beq_self_eq_true _) (List.find?_eq_none.mp hfind block hmem)
  | some other =>
    have hhash : other.block_hash env.hash256 = block.block_hash env.hash256 := beq_iff_eq.mp (List.find?_some hfind :)
    rw [List.inj_on_of_nodup_map hnodup (List.mem_of_find?_eq_some hfind) hmem hhash]
    rfl

theorem tree_store_of_not_mem (params : ChainParams) {blocks : List Block} {hash : BlockHash}
    (hnot : hash ∉ blocks.map fun block => block.block_hash env.hash256) :
    tree_store env params blocks hash = genesis_store env params hash := by
  have hfind : (blocks.find? fun block => block.block_hash env.hash256 == hash) = none := by
    rw [List.find?_eq_none]
    intro block hmem heq
    exact hnot (beq_iff_eq.mp heq ▸ List.mem_map_of_mem hmem)
  unfold tree_store
  rw [hfind]
  rfl

theorem ChainstateManager.Following.prepared {params : ChainParams} {base : CoinsViewDB}
    {start ready : ChainstateManager} {setup : List Event} {blocks : List Block}
    (hempty : ∀ outpoint, base.get_coin outpoint = none) (hstart : FromGenesis env params base start)
    (hsetup : Trace (PreparingStep env) start setup ready)
    (hnot : (params.create_genesis_block env.hash256).block_hash env.hash256 ∉
      blocks.map fun block => block.block_hash env.hash256) :
    Following ready (tree_store env params blocks) ready ∧
      ready.active_hashes = [(params.create_genesis_block env.hash256).block_hash env.hash256] := by
  have hinv : ready.Replayed (genesis_store env params) ∧ ready.coins_tip.base = base ∧
      ready.active_hashes = [(params.create_genesis_block env.hash256).block_hash env.hash256] := by
    refine hsetup.invariant (fun self => self.Replayed (genesis_store env params) ∧ self.coins_tip.base = base ∧
      self.active_hashes = [(params.create_genesis_block env.hash256).block_hash env.hash256]) ?_ ?_
    · rintro self event _ ⟨hreplayed, hbase, hhashes⟩ ⟨hnone, rfl⟩
      have hextends : ExtendsTipEvent env self event := by
        cases event with
        | block _ _ _ => cases hnone
        | header _ _ => exact trivial
        | file_pos _ _ _ => exact trivial
        | undo_pos _ _ => exact trivial
        | assume_valid _ => exact trivial
      have hrecord : record env self (genesis_store env params) event = genesis_store env params := by
        cases event with
        | block _ _ _ => cases hnone
        | header _ _ => rfl
        | file_pos _ _ _ => rfl
        | undo_pos _ _ => rfl
        | assume_valid _ => rfl
      obtain ⟨hafter, hafter_base⟩ := Replayed.apply env hreplayed
        (fun {block} _ _ _ => Unshadowed.of_empty (hbase ▸ hempty) block.vtx) hextends
      rw [hrecord] at hafter
      exact ⟨hafter, hafter_base.trans hbase, (hreplayed.headed.active_hashes_apply env hnone).trans hhashes⟩
    · obtain ⟨hreplayed, hbase⟩ := FromGenesis.replayed env hempty hstart
      exact ⟨hreplayed, hbase, (FromGenesis.headed env hstart).2⟩
  obtain ⟨hreplayed, hbase, hhashes⟩ := hinv
  have hshelf : replay (tree_store env params blocks) ready.active_hashes = some ready.coins_tip.visible := by
    rw [← hreplayed.coins]
    refine replay_congr fun hash hmem => ?_
    rw [hhashes] at hmem
    rw [List.mem_singleton.mp hmem]
    exact tree_store_of_not_mem env params hnot
  exact ⟨⟨⟨hreplayed.toSound, hreplayed.tip, hreplayed.coherent, hshelf⟩, (Updates.refl ready).parallel, hbase ▸ hempty⟩,
    hhashes⟩

/-- In any two runs over a tree of blocks whose headers are known, which deliver the same blocks
    in any two orders, each of them on top of its own ancestors whenever it gets to its
    connection, the same blocks are marked as failed, and the tips have the same work. -/
theorem verdicts_agree {params : ChainParams} {base : CoinsViewDB} {start ready left right : ChainstateManager}
    {setup events others : List Event} (hempty : ∀ outpoint, base.get_coin outpoint = none)
    (hstart : FromGenesis env params base start) (hsetup : Trace (PreparingStep env) start setup ready)
    (hknown : ∀ hash ∈ delivered_hashes env events, (ready.block_index.find_by_hash hash).isSome = true)
    (hnodup : ((params.create_genesis_block env.hash256).block_hash env.hash256 :: delivered_hashes env events).Nodup)
    (hperm : (events.filterMap Event.delivered).Perm (others.filterMap Event.delivered))
    (hleft : Trace (SequentialStep env) ready events left) (hright : Trace (SequentialStep env) ready others right) :
    (∀ idx, (left.entry idx).status.has_failed = (right.entry idx).status.has_failed) ∧
      ∃ tip other, left.chain.tip = some tip ∧ right.chain.tip = some other ∧
        (left.entry tip).chain_work = (right.entry other).chain_work := by
  obtain ⟨hnot, hnodup⟩ := List.nodup_cons.mp hnodup
  obtain ⟨hready, hhashes⟩ := Following.prepared env hempty hstart hsetup hnot
  have hblocks : ∀ block ∈ events.filterMap Event.delivered,
      Deliverable env ready (tree_store env params (events.filterMap Event.delivered)) ready block := by
    intro block hmem
    have hhash : block.block_hash env.hash256 ∈ delivered_hashes env events := List.mem_map_of_mem hmem
    refine ⟨Option.isSome_iff_exists.mp (hknown _ hhash), tree_store_of_mem env params hmem hnodup, fun hin => ?_⟩
    rw [hhashes] at hin
    exact hnot (List.mem_singleton.mp hin ▸ hhash)
  have hothers_nodup : (delivered_hashes env others).Nodup := (hperm.map _).nodup_iff.mp hnodup
  obtain ⟨hleft_end, hleft_failed, hleft_hashes⟩ := Following.run env hleft hready hblocks hnodup
  obtain ⟨hright_end, hright_failed, hright_hashes⟩ := Following.run env hright hready
    (fun block hmem => hblocks block (hperm.mem_iff.mpr hmem)) hothers_nodup
  refine ⟨fun idx => ?_, ?_⟩
  · have hsame : left.failed_at idx = true ↔ right.failed_at idx = true := by
      rw [hleft_failed, hright_failed]
      simp only [hperm.mem_iff]
    exact Bool.eq_iff_iff.mpr hsame
  · obtain ⟨tip, htip, hother⟩ := hleft_end.same_tip hright_end fun hash => by
      rw [hleft_hashes, hright_hashes]
      simp only [hperm.mem_iff]
    refine ⟨tip, tip, htip, hother, ?_⟩
    exact ((hleft_end.parallel.symm.trans hright_end.parallel).chain_work tip).symm

/-- The header of the rival of the first block, without its transactions. -/
def hollow_block : Block := ⟨rival_block.header, []⟩

/-- The manager that knows the headers of the two blocks. -/
def siblings_manager : ChainstateManager :=
  [Event.header first_block.header regtest_now, .header hollow_block.header regtest_now].foldl
    (ChainstateManager.apply .op_true) regtest_manager

/-- Whether a block that gets to its connection is on top of genesis and gets connected. -/
def tops_genesis (manager : ChainstateManager) (block : Block) : Bool :=
  (manager.at_connect .op_true block regtest_now).all fun reached =>
    (reached.2.connect_new_block .op_true block reached.1).1.toOption.isSome &&
      decide (manager.chain.tip = some 0 ∧ parent_of reached.2.arena reached.1 = some 0 ∧
        (reached.2.entry 0).chain_work < (reached.2.entry reached.1).chain_work)

theorem siblings_facts :
    ([first_block.block_hash Env.op_true.hash256, hollow_block.block_hash Env.op_true.hash256].all fun hash =>
      (siblings_manager.block_index.find_by_hash hash).isSome) = true ∧
    [regtest_genesis.block_hash Env.op_true.hash256, first_block.block_hash Env.op_true.hash256,
      hollow_block.block_hash Env.op_true.hash256].Nodup ∧
    tops_genesis siblings_manager first_block = true ∧ tops_genesis siblings_manager hollow_block = true ∧
    tops_genesis (siblings_manager.apply .op_true (.block first_block regtest_now none)) hollow_block = true ∧
    tops_genesis (siblings_manager.apply .op_true (.block hollow_block regtest_now none)) first_block = true := by
  decide +kernel

theorem ChainstateManager.Sequential.of_tops_genesis {manager : ChainstateManager} {block : Block}
    (hrun : tops_genesis manager block = true) : manager.Sequential .op_true block regtest_now := by
  unfold tops_genesis at hrun
  refine ⟨fun idx mid hreach => ?_, fun idx mid hreach => ?_⟩
  · rw [hreach] at hrun
    obtain ⟨htip, hparent, _⟩ := of_decide_eq_true (Bool.and_eq_true_iff.mp hrun).2
    exact ⟨0, htip, hparent⟩
  · rw [hreach] at hrun
    obtain ⟨hok, hchild⟩ := Bool.and_eq_true_iff.mp hrun
    split
    · exact ⟨0, of_decide_eq_true hchild⟩
    · next heq => rw [heq] at hok; cases hok
    · next heq => rw [heq] at hok; cases hok

theorem ChainstateManager.prepared_pair (manager : ChainstateManager) (first second : BlockHeader) (now : Int) :
    Trace (PreparingStep .op_true) manager [.header first now, .header second now]
      ([Event.header first now, .header second now].foldl (ChainstateManager.apply .op_true) manager) :=
  .cons ⟨rfl, rfl⟩ (.cons ⟨rfl, rfl⟩ (.nil _))

theorem delivered_pair (first second : Block) (now : Int) (block_reader : BlockReader) :
    [.block first now block_reader, .block second now block_reader].filterMap Event.delivered = [first, second] := rfl

/-- A valid block and one without transactions, in both orders. -/
theorem verdicts_agree_siblings :
    ∃ left right, Trace (SequentialStep .op_true) siblings_manager
        [.block first_block regtest_now none, .block hollow_block regtest_now none] left ∧
      Trace (SequentialStep .op_true) siblings_manager
        [.block hollow_block regtest_now none, .block first_block regtest_now none] right ∧
      (∀ idx, (left.entry idx).status.has_failed = (right.entry idx).status.has_failed) ∧
      ∃ tip other, left.chain.tip = some tip ∧ right.chain.tip = some other ∧
        (left.entry tip).chain_work = (right.entry other).chain_work := by
  obtain ⟨hknown, hnodup, hfirst, hhollow, hsecond, hlast⟩ := siblings_facts
  have hsetup : Trace (PreparingStep .op_true) regtest_manager
      [.header first_block.header regtest_now, .header hollow_block.header regtest_now] siblings_manager :=
    regtest_manager.prepared_pair _ _ _
  have hleft : Trace (SequentialStep .op_true) siblings_manager
      [.block first_block regtest_now none, .block hollow_block regtest_now none] _ :=
    .cons ⟨.of_tops_genesis hfirst, rfl⟩ (.cons ⟨.of_tops_genesis hsecond, rfl⟩ (.nil _))
  have hright : Trace (SequentialStep .op_true) siblings_manager
      [.block hollow_block regtest_now none, .block first_block regtest_now none] _ :=
    .cons ⟨.of_tops_genesis hhollow, rfl⟩ (.cons ⟨.of_tops_genesis hlast, rfl⟩ (.nil _))
  have hempty : ∀ outpoint, (⟨∅, 0⟩ : CoinsViewDB).get_coin outpoint = none := fun _ => rfl
  have hperm : ([.block first_block regtest_now none, .block hollow_block regtest_now none].filterMap
      Event.delivered).Perm ([.block hollow_block regtest_now none, .block first_block regtest_now none].filterMap
      Event.delivered) := by
    rw [delivered_pair, delivered_pair]
    exact List.Perm.swap ..
  have hhashes : delivered_hashes .op_true [.block first_block regtest_now none, .block hollow_block regtest_now none] =
      [first_block.block_hash Env.op_true.hash256, hollow_block.block_hash Env.op_true.hash256] := by
    unfold delivered_hashes
    rw [delivered_pair, List.map_cons, List.map_singleton]
  unfold regtest_genesis at hnodup
  rw [← hhashes] at hknown hnodup
  exact ⟨_, _, hleft, hright, verdicts_agree .op_true hempty regtest_manager_from_genesis hsetup
    (List.all_eq_true.mp hknown) hnodup hperm hleft hright⟩

/-- A valid block on top of a block that pays its miner too much. -/
def orphaned_block : Block := regtest_block (greedy_block op_true 0) [sample_coinbase [0x52, 0x01] 5000000000] 1

/-- The manager that knows the headers of the first block and of the one that pays too much. -/
def branches_manager : ChainstateManager :=
  [Event.header first_block.header regtest_now, .header (greedy_block op_true 0).header regtest_now].foldl
    (ChainstateManager.apply .op_true) regtest_manager

def branch_positions : List Event :=
  [.file_pos (first_block.block_hash Env.op_true.hash256) 0 300,
    .file_pos ((greedy_block op_true 0).block_hash Env.op_true.hash256) 0 600]

theorem branch_positions_recorded (manager : ChainstateManager) : Trace (PreparingStep .op_true) manager branch_positions
    (branch_positions.foldl (ChainstateManager.apply .op_true) manager) :=
  .cons ⟨rfl, rfl⟩ (.cons ⟨rfl, rfl⟩ (.nil _))

def branch_reader : BlockReader := some fun _ data_pos _ =>
  if data_pos = 300 then some (first_block, ⟨[]⟩)
  else if data_pos = 600 then some (greedy_block op_true 0, ⟨[]⟩)
  else none

def branch_events (blocks : List Block) : List Event := blocks.map fun block => .block block regtest_now branch_reader

/-- The manager that knows the third header too, and the positions. -/
def forked_manager : ChainstateManager :=
  branch_positions.foldl (ChainstateManager.apply .op_true) (branches_manager.add_header .op_true orphaned_block.header 2)

def forked_after (blocks : List Block) : ChainstateManager :=
  (branch_events blocks).foldl (ChainstateManager.apply .op_true) forked_manager

theorem forked_run (blocks : List Block) :
    Run .op_true forked_manager (branch_events blocks) (forked_after blocks) :=
  Trace.of_foldl (ChainstateManager.apply .op_true) (branch_events blocks) forked_manager

theorem branches_facts :
    (collect_ancestors_from branches_manager.arena MEDIAN_TIME_SPAN (some 2)).map BlockIndex.get_block_time =
      [1296689202, 1296688602] ∧
    branches_manager.block_index.find_by_hash (orphaned_block.header.block_hash Env.op_true.hash256) = none ∧
    check_proof_of_work (orphaned_block.header.block_hash Env.op_true.hash256) orphaned_block.header.bits
      branches_manager.params.consensus = true ∧
    branches_manager.block_index.find_by_hash orphaned_block.header.prev_blockhash = some 2 ∧
    (branches_manager.entry 2).status.has_failed = false := by
  decide +kernel

theorem accept_new_header {self : ChainstateManager} {header : BlockHeader} {now : Int} {prev_idx : Nat}
    (hnew : self.block_index.find_by_hash (header.block_hash env.hash256) = none)
    (hcheck : self.check_new_header env header now = .ok prev_idx) :
    self.accept_block_header env header now =
      (.ok self.block_index.indices.length, self.add_header env header prev_idx) := by
  unfold accept_block_header
  rw [hnew]
  dsimp only
  rw [hcheck]

theorem apply_header {self after : ChainstateManager} {header : BlockHeader} {now : Int}
    {result : Except (Failure BlockValidationState) Nat}
    (haccept : self.accept_block_header env header now = (result, after)) : self.apply env (.header header now) = after :=
  congrArg Prod.snd haccept

theorem orphaned_block_header :
    branches_manager.accept_block_header .op_true orphaned_block.header regtest_now =
      (.ok branches_manager.block_index.indices.length, branches_manager.add_header .op_true orphaned_block.header 2) := by
  obtain ⟨htimes, hnew, hpow, hparent, hfailed⟩ := branches_facts
  have hmedian : compute_mtp branches_manager.arena 2 = 1296689202 := by
    unfold compute_mtp collect_mtp_ancestors BlockIndex.get_median_time_past
    rw [List.map_take, htimes]
    simp [MEDIAN_TIME_SPAN, List.mergeSort]
  have hcheck : branches_manager.check_new_header .op_true orphaned_block.header regtest_now = .ok 2 := by
    refine (check_new_header_eq_ok .op_true).mpr ⟨hpow, hparent, hfailed, ?_⟩
    unfold contextual_check_block_header_with_arena
    rw [hmedian]
    decide +kernel
  exact accept_new_header .op_true hnew hcheck

theorem forked_facts :
    (([first_block, greedy_block op_true 0, orphaned_block].map fun block =>
      block.block_hash Env.op_true.hash256).all fun hash =>
        (forked_manager.block_index.find_by_hash hash).isSome) = true ∧
    ((forked_after [first_block, greedy_block op_true 0, orphaned_block]).chain.tip.map fun tip =>
      ((forked_after [first_block, greedy_block op_true 0, orphaned_block]).entry tip).chain_work) ≠
    ((forked_after [greedy_block op_true 0, orphaned_block, first_block]).chain.tip.map fun tip =>
      ((forked_after [greedy_block op_true 0, orphaned_block, first_block]).entry tip).chain_work) := by
  decide +kernel

/-- A block on top of the one that pays too much becomes the best tip, though no call can ever
    connect the block below it. If it comes before the first block, that one is not activated. -/
theorem verdicts_agree_fails :
    ∃ left right, Trace (PreparingStep .op_true) regtest_manager
        ([.header first_block.header regtest_now, .header (greedy_block op_true 0).header regtest_now,
          .header orphaned_block.header regtest_now] ++ branch_positions) forked_manager ∧
      (∀ hash ∈ [first_block, greedy_block op_true 0, orphaned_block].map fun block =>
        block.block_hash Env.op_true.hash256, (forked_manager.block_index.find_by_hash hash).isSome = true) ∧
      Run .op_true forked_manager (branch_events [first_block, greedy_block op_true 0, orphaned_block]) left ∧
      Run .op_true forked_manager (branch_events [greedy_block op_true 0, orphaned_block, first_block]) right ∧
      ¬ ∃ tip other, left.chain.tip = some tip ∧ right.chain.tip = some other ∧
        (left.entry tip).chain_work = (right.entry other).chain_work := by
  obtain ⟨hknown, hworks⟩ := forked_facts
  have horphaned : branches_manager.add_header .op_true orphaned_block.header 2 =
      branches_manager.apply .op_true (.header orphaned_block.header regtest_now) :=
    (apply_header .op_true orphaned_block_header).symm
  have hpositions : Trace (PreparingStep .op_true) (branches_manager.add_header .op_true orphaned_block.header 2)
      branch_positions forked_manager := branch_positions_recorded _
  have hbranches : Trace (PreparingStep .op_true) regtest_manager [.header first_block.header regtest_now,
      .header (greedy_block op_true 0).header regtest_now] branches_manager := regtest_manager.prepared_pair _ _ _
  have hsetup : Trace (PreparingStep .op_true) regtest_manager ([.header first_block.header regtest_now,
      .header (greedy_block op_true 0).header regtest_now, .header orphaned_block.header regtest_now] ++ branch_positions)
      forked_manager :=
    hbranches.append (.cons ⟨rfl, horphaned⟩ hpositions)
  refine ⟨_, _, hsetup, List.all_eq_true.mp hknown, forked_run _, forked_run _, ?_⟩
  rintro ⟨tip, other, htip, hother, hwork⟩
  rw [htip, hother] at hworks
  exact hworks (congrArg some hwork)

end qubitcoin.chainstate
