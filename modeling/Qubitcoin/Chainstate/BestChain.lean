import Qubitcoin.Chainstate.Sound

/-! The active chain is the best one, as long as no failed block is connected and no
    reorganisation stops halfway. -/

open qubitcoin primitives transaction block coins params check validation_state chain chainparams
  qubitcoin.validation parentTree transition

namespace qubitcoin.chainstate

namespace ChainstateManager

variable {self : ChainstateManager}

def valid_at (self : ChainstateManager) (idx : Nat) : Bool := (self.entry idx).is_valid BlockStatus.VALID_SCRIPTS

theorem valid_at_mark_failed (idx i : Nat) (e : Failure BlockValidationState)
    (hvalid : (self.mark_failed idx e).valid_at i = true) : self.valid_at i = true := by
  cases e with
  | panic why => exact hvalid
  | invalid state =>
    unfold valid_at mark_failed at hvalid
    rw [entry_update_entry] at hvalid
    split at hvalid
    · have hfailed : ((self.entry i).status.insert BlockStatus.FAILED_VALID).is_valid
          BlockStatus.VALID_SCRIPTS = false := BlockStatus.not_is_valid_failed _
      unfold BlockIndex.is_valid at hvalid
      rw [hfailed] at hvalid
      cases hvalid
    · exact hvalid

theorem valid_at_mark_failed_of_ne {idx i : Nat} (hne : idx ≠ i) (e : Failure BlockValidationState) :
    (self.mark_failed idx e).valid_at i = self.valid_at i := by
  cases e with
  | panic why => rfl
  | invalid state =>
    unfold valid_at mark_failed
    rw [entry_update_entry, if_neg (by simp [hne])]

theorem valid_at_receive_data (block : Block) (idx i : Nat) :
    (self.receive_data block idx).valid_at i = self.valid_at i := by
  unfold valid_at receive_data
  rw [entry_update_entry]
  split
  · rw [Bool.eq_iff_iff]
    unfold BlockIndex.is_valid
    constructor
    · intro hvalid
      have hdata := BlockStatus.is_valid_of_raise (by decide) (by decide) (by decide) hvalid
      rwa [BlockStatus.is_valid_have_data] at hdata
    · intro hvalid
      apply BlockStatus.is_valid_raise (by decide) (by decide)
      rw [BlockStatus.is_valid_have_data]
      exact hvalid
  · rfl

theorem entry_mark_connected (idx i : Nat) :
    (self.mark_connected idx).entry i = if idx = i ∧ i < self.arena.length
      then { self.entry i with status := (self.entry i).status.raise_validity BlockStatus.VALID_SCRIPTS }
      else self.entry i := by
  have hentry := self.entry_update_entry idx i fun index =>
    { index with status := index.status.raise_validity BlockStatus.VALID_SCRIPTS }
  unfold mark_connected
  dsimp only
  split
  · exact hentry
  · exact hentry

variable (env : Env)

/-- The blocks of a path connected again one after the other, over the coins alone. -/
def replay_loop (self : ChainstateManager) (block_reader : BlockReader) (just_connected : Option Nat)
    (new_chain : List Nat) : List Int → CoinsViewCache → Option CoinsViewCache
  | [], view => some view
  | h :: rest, view =>
    match new_chain[h.toNat]? with
    | none => some view
    | some idx =>
      if just_connected = some idx then self.replay_loop block_reader just_connected new_chain rest view
      else
        match self.read_block block_reader idx with
        | none => self.replay_loop block_reader just_connected new_chain rest view
        | some (block, _) =>
          match connect_block env block h view self.params.consensus (some (self.mtp_lookup 0))
              (self.should_skip_scripts idx) with
          | (.error _, _) => none
          | (.ok _, view) => self.replay_loop block_reader just_connected new_chain rest view

theorem connect_at_replay {block_reader : BlockReader} {h : Int} {idx : Nat} {block : Block}
    {undo spent : BlockUndo} {view : CoinsViewCache} (hvalid : self.valid_at idx = true)
    (hread : self.read_block block_reader idx = some (block, undo))
    (hconnect : connect_block env block h self.coins_tip self.params.consensus (some (self.mtp_lookup 0))
      (self.should_skip_scripts idx) = (.ok spent, view)) :
    self.connect_at env block_reader h idx = (.ok (), { self with coins_tip := view }) := by
  unfold connect_at
  rw [hread]
  dsimp only
  rw [hconnect]
  exact if_pos hvalid

theorem connect_loop_replay {block_reader : BlockReader} {just_connected : Option Nat} {new_chain : List Nat}
    (hvalid : ∀ idx ∈ new_chain, just_connected ≠ some idx → self.valid_at idx = true) {heights : List Int} :
    ∀ {view after : CoinsViewCache},
      self.replay_loop env block_reader just_connected new_chain heights view = some after →
      connect_loop env block_reader just_connected new_chain heights { self with coins_tip := view } =
        (.ok (), { self with coins_tip := after }) := by
  induction heights with
  | nil =>
    intro view after hreplay
    cases hreplay
    rfl
  | cons h rest ih =>
    intro view after hreplay
    unfold replay_loop at hreplay
    unfold connect_loop
    cases hat : new_chain[h.toNat]? with
    | none =>
      rw [hat] at hreplay
      cases hreplay
      rfl
    | some idx =>
      rw [hat] at hreplay
      dsimp only at hreplay ⊢
      split at hreplay
      · next hjust =>
        rw [if_pos hjust]
        exact ih hreplay
      · next hjust =>
        have hidx : { self with coins_tip := view }.valid_at idx = true :=
          hvalid idx (List.mem_of_getElem? hat) hjust
        rw [if_neg hjust]
        split at hreplay
        · next hread =>
          have hread : { self with coins_tip := view }.read_block block_reader idx = none := hread
          unfold connect_at
          rw [hread]
          exact ih hreplay
        · next block undo hread =>
          split at hreplay
          · cases hreplay
          · next spent coins_tip hconnect =>
            have hread : { self with coins_tip := view }.read_block block_reader idx = some (block, undo) := hread
            rw [connect_at_replay env hidx hread hconnect]
            exact ih hreplay

/-- The active blocks above the fork can be disconnected, and the blocks of the
    path to an entry connected again. -/
def Reconnects (self : ChainstateManager) (block_reader : BlockReader) (idx : Nat) : Prop :=
  ∃ view after, self.disconnect_loop block_reader
      (heights_down (self.find_fork_height (self.build_chain_path idx) self.chain.height) self.chain.height)
      self.coins_tip = .ok view ∧
    self.replay_loop env block_reader (some idx) (self.build_chain_path idx)
      (heights_up (self.find_fork_height (self.build_chain_path idx) self.chain.height) (self.entry idx).height)
      view = some after

theorem Indexed.reconnects_child (hindexed : self.Indexed) {tip idx : Nat} (block_reader : BlockReader)
    (hchain : AncestorPath self.arena tip self.chain.chain) (hparent : parent_of self.arena idx = some tip) :
    self.Reconnects env block_reader idx := by
  have hlength := hchain.2.1
  have htop : (self.chain.height + 1).toNat = self.chain.chain.length := by
    unfold Chain.height
    omega
  refine ⟨self.coins_tip, self.coins_tip, ?_, ?_⟩
  · rw [hindexed.build_chain_path_child hchain hparent, find_fork_height_child hchain, heights_down_self]
    rfl
  · rw [hindexed.build_chain_path_child hchain hparent, find_fork_height_child hchain,
      hindexed.height_child hchain hparent, heights_up_succ]
    unfold replay_loop
    rw [htop, List.getElem?_concat_length]
    dsimp only
    rw [if_pos rfl]
    rfl

theorem reorganize_replay {block_reader : BlockReader} {idx : Nat}
    (hvalid : ∀ i ∈ self.build_chain_path idx, i ≠ idx → self.valid_at i = true)
    (hreconnects : self.Reconnects env block_reader idx) :
    (self.reorganize env block_reader (some idx) idx).1 = .ok () ∧
      (self.reorganize env block_reader (some idx) idx).2.block_index = self.block_index ∧
      (self.reorganize env block_reader (some idx) idx).2.best_valid_tip = self.best_valid_tip := by
  obtain ⟨view, after, hdisconnect, hreplay⟩ := hreconnects
  have hpath : ∀ i ∈ self.build_chain_path idx, some idx ≠ some i → self.valid_at i = true :=
    fun i hmem hne => hvalid i hmem fun heq => hne (congrArg some heq.symm)
  have hloop := connect_loop_replay env hpath hreplay
  unfold ChainstateManager.reorganize
  dsimp only
  rw [hdisconnect]
  dsimp only
  rw [hloop]
  exact ⟨rfl, rfl, rfl⟩

/-- The active chain is fully valid and ends at the best tip, and no fully valid
    entry has more work. -/
structure BestChain (manager : ChainstateManager) : Prop extends Sound manager where
  active : ∃ tip, AncestorPath manager.arena tip manager.chain.chain ∧
    manager.best_valid_tip = some (tip, (manager.entry tip).chain_work) ∧
    (∀ idx ∈ manager.chain.chain, manager.valid_at idx = true) ∧
    ∀ idx, idx < manager.arena.length → manager.valid_at idx = true →
      (manager.entry idx).chain_work ≤ (manager.entry tip).chain_work

theorem BestChain.of_updates (hbest : self.BestChain) {after : ChainstateManager} (hsound : after.Sound)
    (hupdates : Updates self after) (hchain : after.chain = self.chain)
    (htip : after.best_valid_tip = self.best_valid_tip)
    (hkeep : ∀ idx ∈ self.chain.chain, after.valid_at idx = true)
    (hvalid : ∀ idx, after.valid_at idx = true → self.valid_at idx = true) : after.BestChain := by
  obtain ⟨tip, hpath, hbest_tip, _, hmax⟩ := hbest.active
  refine ⟨hsound, tip, ?_, ?_, ?_, ?_⟩
  · rw [hchain]
    exact hupdates.path hpath
  · rw [htip, hupdates.chain_work]
    exact hbest_tip
  · rw [hchain]
    exact hkeep
  · intro idx hlt hidx
    rw [hupdates.chain_work, hupdates.chain_work]
    rw [hupdates.length] at hlt
    exact hmax idx hlt (hvalid idx hidx)

theorem BestChain.is_connected_of_mem (hbest : self.BestChain) {idx : Nat} (hmem : idx ∈ self.chain.chain) :
    self.is_connected idx = true := by
  obtain ⟨tip, hpath, _, hvalid, _⟩ := hbest.active
  obtain ⟨h, hat⟩ := List.mem_iff_getElem?.mp hmem
  have hheight := hpath.2.height_getElem? hbest.tree.leveled hat
  have hlt := hbest.mem_path_lt hpath hmem
  have hentry : (self.entry idx).height = h := by
    rw [hbest.tree.height_eq (getElem?_entry hlt), hheight]
  have hvalid := hvalid idx hmem
  unfold valid_at at hvalid
  unfold is_connected Chain.get_block_index
  rw [hvalid, hentry, if_neg (by omega), Int.toNat_natCast, hat]
  simp

theorem Indexed.valid_at_add_header (hindexed : self.Indexed) {header : BlockHeader} {prev_idx : Nat}
    (hprev : prev_idx < self.arena.length) {i : Nat} (hvalid : (self.add_header env header prev_idx).valid_at i = true) :
    i < self.arena.length ∧ self.valid_at i = true := by
  obtain ⟨skip, harena, _⟩ := hindexed.add_header_arena env header hprev
  unfold valid_at at hvalid ⊢
  rcases Nat.lt_trichotomy i self.arena.length with hlt | rfl | hgt
  · rw [hindexed.entry_add_header env header hprev hlt] at hvalid
    exact ⟨hlt, hvalid⟩
  · have hat : (self.add_header env header prev_idx).arena[self.arena.length]? =
        some { self.child_index env header prev_idx with skip } := by rw [harena]; simp
    rw [entry_eq hat] at hvalid
    have hstatus : (BlockStatus.default.raise_validity BlockStatus.VALID_TREE).is_valid
        BlockStatus.VALID_SCRIPTS = true := hvalid
    exact absurd hstatus (by decide)
  · have hnone : (self.add_header env header prev_idx).entry i = .new := by
      apply getD_of_length_le
      change (self.add_header env header prev_idx).arena.length ≤ i
      rw [harena, List.length_append, List.length_singleton]
      omega
    rw [hnone] at hvalid
    exact absurd hvalid (by decide)

theorem Indexed.valid_at_accept_block_header (hindexed : self.Indexed) (header : BlockHeader) (now : Int) {i : Nat}
    (hvalid : (self.accept_block_header env header now).2.valid_at i = true) : self.valid_at i = true := by
  cases haccept : self.accept_block_header env header now with
  | mk result after =>
    rw [haccept] at hvalid
    cases result with
    | error e =>
      obtain rfl := accept_block_header_error env haccept
      exact hvalid
    | ok idx =>
      obtain ⟨_, rfl⟩ | ⟨prev_idx, _, hcheck, rfl, rfl⟩ := accept_block_header_ok env haccept
      · exact hvalid
      · have hprev := hindexed.find_lt (check_new_header_ok env hcheck).1
        exact (hindexed.valid_at_add_header env hprev hvalid).2

theorem BestChain.add_header (hbest : self.BestChain) {header : BlockHeader} {prev_idx : Nat}
    (hprev : prev_idx < self.arena.length) (hsound : (self.add_header env header prev_idx).Sound) :
    (self.add_header env header prev_idx).BestChain := by
  have hentry : ∀ {i : Nat}, i < self.arena.length →
      (self.add_header env header prev_idx).entry i = self.entry i :=
    fun hlt => hbest.entry_add_header env header hprev hlt
  obtain ⟨tip, hpath, htip, hvalid, hmax⟩ := hbest.active
  refine ⟨hsound, tip, hbest.path_add_header env header hprev hpath, ?_, ?_, ?_⟩
  · rw [hentry hpath.1]
    exact htip
  · intro i hmem
    unfold valid_at
    rw [hentry (hbest.mem_path_lt hpath hmem)]
    exact hvalid i hmem
  · intro i _ hi
    obtain ⟨hin, hi⟩ := hbest.valid_at_add_header env hprev hi
    rw [hentry hpath.1, hentry hin]
    exact hmax i hin hi

theorem BestChain.accept_block_header (hbest : self.BestChain) (header : BlockHeader) (now : Int) :
    (self.accept_block_header env header now).2.BestChain := by
  have hsound := hbest.toSound.accept_block_header env header now
  cases haccept : self.accept_block_header env header now with
  | mk result after =>
    rw [haccept] at hsound
    cases result with
    | error e =>
      obtain rfl := accept_block_header_error env haccept
      exact hbest
    | ok idx =>
      obtain ⟨_, rfl⟩ | ⟨prev_idx, _, hcheck, rfl, rfl⟩ := accept_block_header_ok env haccept
      · exact hbest
      · obtain ⟨hfound, _⟩ := check_new_header_ok env hcheck
        exact hbest.add_header env (hbest.find_lt hfound) hsound

theorem mark_connected_best (self : ChainstateManager) (idx : Nat) :
    (self.mark_connected idx).best_valid_tip =
      if self.best_valid_tip.all fun best => decide (best.2 < (self.entry idx).chain_work)
      then some (idx, (self.entry idx).chain_work) else self.best_valid_tip := by
  have hupdates : Updates self (self.update_entry idx fun index =>
      { index with status := index.status.raise_validity BlockStatus.VALID_SCRIPTS }) :=
    .update_entry self idx fun _ => rfl
  unfold mark_connected
  dsimp only
  rw [hupdates.chain_work idx]
  exact apply_ite best_valid_tip _ _ _

theorem connected_frame (self : ChainstateManager) (idx : Nat) (coins_tip : CoinsViewCache) :
    Updates self (self.connected idx coins_tip) ∧ (self.connected idx coins_tip).chain = self.chain ∧
      ∀ i, i ≠ idx → (self.connected idx coins_tip).valid_at i = self.valid_at i := by
  have hcoins : Updates self { self with coins_tip } := .of_index_eq rfl rfl rfl rfl
  refine ⟨hcoins.trans (mark_connected_updates { self with coins_tip } idx), mark_connected_chain idx,
    fun i hne => ?_⟩
  have hentry : (self.connected idx coins_tip).entry i = { self with coins_tip }.entry i :=
    (entry_mark_connected idx i).trans (if_neg fun h => hne h.1.symm)
  exact congrArg (BlockIndex.is_valid · BlockStatus.VALID_SCRIPTS) hentry

theorem valid_at_connected {idx : Nat} (hlt : idx < self.arena.length) (coins_tip : CoinsViewCache)
    (hfailed : (self.entry idx).status.has_failed = false) : (self.connected idx coins_tip).valid_at idx = true := by
  have hlt : idx < { self with coins_tip }.arena.length := hlt
  unfold valid_at connected
  rw [entry_mark_connected, if_pos ⟨rfl, hlt⟩]
  exact BlockStatus.is_valid_raise_self (by decide) (by decide)
    (BlockStatus.failed_valid_of_not_has_failed hfailed)

theorem valid_at_connected_of_valid_at (idx : Nat) {i : Nat} (coins_tip : CoinsViewCache)
    (hvalid : self.valid_at i = true) : (self.connected idx coins_tip).valid_at i = true := by
  unfold valid_at connected
  rw [entry_mark_connected]
  split
  · exact BlockStatus.is_valid_raise (by decide) (by decide) hvalid
  · exact hvalid

/-- A block that is connected and has more work than the active tip was not marked
    as failed, has only fully valid blocks below it, and the blocks of its branch
    connect again once the active ones are disconnected. -/
def Orderly (self : ChainstateManager) (block : Block) (now : Int) (block_reader : BlockReader) : Prop :=
  ∀ idx mid undo coins_tip tip, self.at_connect env block now = some (idx, mid) →
    mid.connect_new_block env block idx = (.ok undo, coins_tip) →
    self.chain.tip = some tip → (mid.entry tip).chain_work < (mid.entry idx).chain_work →
    (mid.entry idx).status.has_failed = false ∧
      (∀ i ∈ mid.build_chain_path idx, i ≠ idx → mid.valid_at i = true) ∧
      (mid.connected idx coins_tip).Reconnects env block_reader idx

theorem BestChain.activate (hbest : self.BestChain) {block_reader : BlockReader} {idx : Nat}
    (hlt : idx < self.arena.length) (coins_tip : CoinsViewCache)
    (horderly : ∀ tip, self.chain.tip = some tip → (self.entry tip).chain_work < (self.entry idx).chain_work →
      (self.entry idx).status.has_failed = false ∧
        (∀ i ∈ self.build_chain_path idx, i ≠ idx → self.valid_at i = true) ∧
        (self.connected idx coins_tip).Reconnects env block_reader idx) :
    ((self.connected idx coins_tip).activate_best_chain env block_reader (some idx)).2.BestChain := by
  obtain ⟨tip, hpath, htip, hvalid, hmax⟩ := hbest.active
  obtain ⟨hupdates, hchain, hothers⟩ := self.connected_frame idx coins_tip
  have hsound : (self.connected idx coins_tip).Sound := (hbest.toSound.with_coins coins_tip).mark_connected hlt
  have hcurrent : (self.connected idx coins_tip).chain.tip = some tip := by
    rw [hchain]
    exact tip_of_path hpath
  have hbest_tip : (self.connected idx coins_tip).best_valid_tip =
      if self.best_valid_tip.all fun best => decide (best.2 < (self.entry idx).chain_work)
      then some (idx, (self.entry idx).chain_work) else self.best_valid_tip :=
    { self with coins_tip }.mark_connected_best idx
  rw [htip] at hbest_tip
  by_cases hmore : (self.entry tip).chain_work < (self.entry idx).chain_work
  · -- The block becomes the best tip, and the chain is reorganised to it.
    obtain ⟨hfailed, hbelow, hreconnects⟩ := horderly tip (tip_of_path hpath) hmore
    have hbest_tip : (self.connected idx coins_tip).best_valid_tip = some (idx, (self.entry idx).chain_work) := by
      simpa [hmore] using hbest_tip
    have hne : tip ≠ idx := by
      rintro rfl
      exact BitVec.lt_irrefl _ hmore
    have hself := valid_at_connected hlt coins_tip hfailed
    have hlt_after : idx < (self.connected idx coins_tip).arena.length := by
      rw [hupdates.length]
      exact hlt
    have hnew := hsound.build_chain_path hlt_after
    have hsame : self.build_chain_path idx = (self.connected idx coins_tip).build_chain_path idx :=
      (hupdates.path (hbest.build_chain_path hlt)).2.unique hnew.2
    have hpath_valid : ∀ i ∈ (self.connected idx coins_tip).build_chain_path idx, i ≠ idx →
        (self.connected idx coins_tip).valid_at i = true := by
      intro i hmem hi
      rw [hothers i hi]
      rw [← hsame] at hmem
      exact hbelow i hmem hi
    obtain ⟨hok, hindex, hbest_after⟩ := reorganize_replay env hpath_valid hreconnects
    obtain ⟨hsound_after, hchain_after, _⟩ := hsound.reorganize env block_reader (some idx) hlt_after
    have hchain_after := hchain_after hok
    unfold activate_best_chain
    rw [hbest_tip]
    dsimp only
    rw [hcurrent, if_neg (by simpa using hne)]
    generalize (self.connected idx coins_tip).reorganize env block_reader (some idx) idx = result
      at hok hindex hbest_after hsound_after hchain_after ⊢
    have hentry_after : ∀ i, result.2.entry i = (self.connected idx coins_tip).entry i := fun i => by
      unfold entry
      rw [hindex]
    have hvalid_after : ∀ i, result.2.valid_at i = (self.connected idx coins_tip).valid_at i := fun i => by
      unfold valid_at
      rw [hentry_after]
    have harena : result.2.arena = (self.connected idx coins_tip).arena := by
      unfold arena
      rw [hindex]
    refine ⟨hsound_after, idx, ?_, ?_, ?_, ?_⟩
    · rw [harena]
      exact hchain_after
    · rw [hbest_after, hbest_tip, hentry_after, hupdates.chain_work]
    · intro i hmem
      rw [hchain_after.2.unique hnew.2] at hmem
      rw [hvalid_after]
      by_cases hi : i = idx
      · rw [hi]
        exact hself
      · exact hpath_valid i hmem hi
    · intro i hi hval
      rw [hentry_after, hentry_after, hupdates.chain_work, hupdates.chain_work]
      rw [harena, hupdates.length] at hi
      by_cases heq : i = idx
      · rw [heq]
        exact BitVec.le_refl _
      · rw [hvalid_after, hothers i heq] at hval
        exact BitVec.le_trans (hmax i hi hval) (BitVec.le_of_lt hmore)
  · -- The tip stays, and the block has no more work than it.
    have hbest_tip : (self.connected idx coins_tip).best_valid_tip = some (tip, (self.entry tip).chain_work) := by
      simpa [hmore] using hbest_tip
    unfold activate_best_chain
    rw [hbest_tip]
    dsimp only
    rw [if_pos hcurrent]
    refine ⟨hsound, tip, ?_, ?_, ?_, ?_⟩
    · rw [hchain]
      exact hupdates.path hpath
    · rw [hbest_tip, hupdates.chain_work]
    · intro i hmem
      rw [hchain] at hmem
      exact valid_at_connected_of_valid_at idx coins_tip (hvalid i hmem)
    · intro i hi hval
      rw [hupdates.chain_work, hupdates.chain_work]
      rw [hupdates.length] at hi
      by_cases heq : i = idx
      · rw [heq]
        exact BitVec.not_lt.mp hmore
      · rw [hothers i heq] at hval
        exact hmax i hi hval

theorem BestChain.mark_failed (hbest : self.BestChain) {idx : Nat} (hidx : idx ≠ 0)
    (hnot : idx ∉ self.chain.chain) (e : Failure BlockValidationState) : (self.mark_failed idx e).BestChain := by
  obtain ⟨_, _, _, hvalid, _⟩ := hbest.active
  refine hbest.of_updates (hbest.toSound.mark_failed hidx e) (self.mark_failed_updates idx e)
    (mark_failed_chain idx e) ?_ ?_ ?_
  · cases e <;> rfl
  · intro i hmem
    have hne : idx ≠ i := fun heq => hnot (heq ▸ hmem)
    rw [valid_at_mark_failed_of_ne hne]
    exact hvalid i hmem
  · exact fun i hi => valid_at_mark_failed idx i e hi

theorem BestChain.receive_data (hbest : self.BestChain) (block : Block) (idx : Nat) :
    (self.receive_data block idx).BestChain := by
  obtain ⟨_, _, _, hvalid, _⟩ := hbest.active
  refine hbest.of_updates (hbest.toSound.receive_data block idx) (self.receive_data_updates block idx) rfl rfl ?_ ?_
  · intro i hmem
    rw [valid_at_receive_data]
    exact hvalid i hmem
  · intro i hi
    rwa [valid_at_receive_data] at hi

theorem BestChain.with_coins (hbest : self.BestChain) (coins_tip : CoinsViewCache) :
    { self with coins_tip }.BestChain := ⟨hbest.toSound.with_coins coins_tip, hbest.active⟩

theorem BestChain.process_new_block (hbest : self.BestChain) {block : Block} {now : Int}
    {block_reader : BlockReader} (horderly : self.Orderly env block now block_reader) :
    (self.process_new_block env block now block_reader).2.BestChain := by
  have hstart := hbest.accept_block_header env block.header now
  have hfound := (hbest.toIndexed.accept_block_header env block.header now).2
  -- A block that gets to its body is not on the active chain, whose blocks are connected.
  have hbody : ∀ {idx mid}, self.accept_block_header env block.header now = (.ok idx, mid) →
      mid.is_connected idx = false →
      mid.BestChain ∧ idx ≠ 0 ∧ idx < mid.arena.length ∧ idx ∉ mid.chain.chain := by
    intro idx mid hheader hknown
    rw [hheader] at hstart hfound
    refine ⟨hstart, ?_, hstart.find_lt (hfound idx rfl), fun hmem => ?_⟩
    · rintro rfl
      rw [hstart.is_connected_genesis] at hknown
      cases hknown
    · rw [hstart.is_connected_of_mem hmem] at hknown
      cases hknown
  have hprocessed := self.process_new_block_processed env block now block_reader
  generalize (self.process_new_block env block now block_reader).1 = result at hprocessed
  generalize (self.process_new_block env block now block_reader).2 = after at hprocessed
  cases hprocessed with
  | header _ => exact hbest
  | known hheader _ =>
    rw [hheader] at hstart
    exact hstart
  | body hheader hknown _ =>
    obtain ⟨hmid, hne, _, hnot⟩ := hbody hheader hknown
    exact hmid.mark_failed hne hnot _
  | context hheader hknown _ _ =>
    obtain ⟨hmid, hne, _, hnot⟩ := hbody hheader hknown
    exact (hmid.receive_data block _).mark_failed hne hnot _
  | connect hheader hknown _ _ _ =>
    obtain ⟨hmid, hne, _, hnot⟩ := hbody hheader hknown
    exact ((hmid.receive_data block _).with_coins _).mark_failed hne hnot _
  | @activate idx mid after undo coins_tip result hheader hknown hcheck hcontext hconnect hactivate =>
    obtain ⟨hmid, _, hlt, _⟩ := hbody hheader hknown
    have hlt : idx < (mid.receive_data block idx).arena.length := by
      rw [(receive_data_updates mid block idx).length]
      exact hlt
    have hreach : self.at_connect env block now = some (idx, mid.receive_data block idx) :=
      (at_connect_eq_some env).mpr ⟨mid, hheader, hknown, hcheck, hcontext, rfl⟩
    obtain ⟨_, hchain, _⟩ := at_connect_frame env hreach
    have hafter := (hmid.receive_data block idx).activate env hlt coins_tip fun tip htip hmore => by
      rw [hchain] at htip
      exact horderly idx _ undo coins_tip tip hreach hconnect htip hmore
    rwa [hactivate] at hafter

theorem BestChain.set_pos (hbest : self.BestChain) (idx : Nat) {update : BlockIndex → BlockIndex}
    (hfixed : ∀ index, (update index).fixed = index.fixed) (hstatus : ∀ index, (update index).status = index.status) :
    (self.update_entry idx update).BestChain := by
  obtain ⟨_, _, _, hvalid, _⟩ := hbest.active
  have hsame : ∀ i, (self.update_entry idx update).valid_at i = self.valid_at i := by
    intro i
    unfold valid_at
    rw [entry_update_entry]
    split
    · unfold BlockIndex.is_valid
      rw [hstatus]
    · rfl
  refine hbest.of_updates (Sound.set_pos hbest.toSound idx hfixed hstatus) (.update_entry self idx hfixed) rfl rfl
    ?_ ?_
  · intro i hmem
    rw [hsame]
    exact hvalid i hmem
  · intro i hi
    rwa [hsame] at hi

/-- The steps of a run that are orderly. -/
def OrderlyEvent (self : ChainstateManager) : Event → Prop
  | .block block now block_reader => self.Orderly env block now block_reader
  | _ => True

theorem BestChain.apply (hbest : self.BestChain) {event : Event} (horderly : self.OrderlyEvent env event) :
    (self.apply env event).BestChain := by
  cases event with
  | block block now block_reader => exact hbest.process_new_block env horderly
  | header header now => exact hbest.accept_block_header env header now
  | file_pos hash file data_pos =>
    unfold ChainstateManager.apply set_file_pos
    dsimp only
    split
    · next idx _ => exact hbest.set_pos idx (fun _ => rfl) fun _ => rfl
    · exact hbest
  | undo_pos hash undo_pos =>
    unfold ChainstateManager.apply set_undo_pos
    dsimp only
    split
    · next idx _ => exact hbest.set_pos idx (fun _ => rfl) fun _ => rfl
    · exact hbest
  | assume_valid hash => exact ⟨Sound.apply env hbest.toSound (.assume_valid hash), hbest.active⟩

theorem BestChain.orderly_of_child (hbest : self.BestChain) {block : Block} {now : Int} (block_reader : BlockReader)
    (hchild : ∀ idx mid tip, self.at_connect env block now = some (idx, mid) → self.chain.tip = some tip →
      parent_of mid.arena idx = some tip ∧ (mid.entry idx).status.has_failed = false) :
    self.Orderly env block now block_reader := by
  intro idx mid undo coins_tip tip hreach _ htip _
  obtain ⟨hparent, hfailed⟩ := hchild idx mid tip hreach htip
  have hmid : mid.BestChain := by
    obtain ⟨start, hheader, _, _, _, rfl⟩ := (at_connect_eq_some env).mp hreach
    have hstart := hbest.accept_block_header env block.header now
    rw [hheader] at hstart
    exact hstart.receive_data block idx
  obtain ⟨_, hchain, _⟩ := at_connect_frame env hreach
  obtain ⟨mid_tip, hpath, _, hvalid, _⟩ := hmid.active
  have hsame : mid_tip = tip := by
    have hmid_tip := tip_of_path hpath
    rw [hchain, htip] at hmid_tip
    exact (Option.some.inj hmid_tip).symm
  subst hsame
  have hlt := (hmid.tree.parent_lt hparent).2
  refine ⟨hfailed, ?_, ?_⟩
  · intro i hmem hne
    rw [hmid.build_chain_path_child hpath hparent, List.mem_append, List.mem_singleton] at hmem
    exact hvalid i (hmem.resolve_right hne)
  · obtain ⟨hupdates, hkept, _⟩ := mid.connected_frame idx coins_tip
    have hsound : (mid.connected idx coins_tip).Sound := (hmid.toSound.with_coins coins_tip).mark_connected hlt
    have hpath_after : AncestorPath (mid.connected idx coins_tip).arena mid_tip
        (mid.connected idx coins_tip).chain.chain := by
      rw [hkept]
      exact hupdates.path hpath
    refine hsound.reconnects_child env block_reader hpath_after ?_
    rw [hupdates.parent_of]
    exact hparent

end ChainstateManager

open ChainstateManager

variable (env : Env)

theorem FromGenesis.best_chain {params : ChainParams} {base : CoinsViewDB} {start : ChainstateManager}
    (hstart : FromGenesis env params base start) : start.BestChain := by
  have hsound := FromGenesis.sound env hstart
  obtain ⟨coins_tip, _, rfl⟩ := load_genesis_block_new env hstart
  refine ⟨hsound, 0, ⟨by simp [arena], rfl, ?_⟩, rfl, ?_, ?_⟩
  · intro h hle
    obtain rfl : h = 0 := Nat.le_zero.mp hle
    rfl
  · intro idx hmem
    obtain rfl := List.mem_singleton.mp hmem
    exact hsound.genesis
  · intro idx hlt _
    obtain rfl : idx = 0 := Nat.lt_one_iff.mp hlt
    exact BitVec.le_refl _

/-- After every run from genesis whose steps are orderly the active chain is the
    path of its tip, none of its blocks has failed, and no fully valid block has more
    work than the tip. -/
theorem active_chain_is_best {params : ChainParams} {base : CoinsViewDB} {start after : ChainstateManager}
    {events : List Event} (hstart : FromGenesis env params base start)
    (hrun : Trace (fun self event next => self.OrderlyEvent env event ∧ next = self.apply env event)
      start events after) :
    ∃ tip, after.chain.tip = some tip ∧ AncestorPath after.arena tip after.chain.chain ∧
      (∀ idx ∈ after.chain.chain, (after.entry idx).status.has_failed = false) ∧
      ∀ idx < after.arena.length, (after.entry idx).status.has_failed = false →
        (after.entry idx).is_valid BlockStatus.VALID_SCRIPTS = true →
        ¬ (after.entry tip).chain_work < (after.entry idx).chain_work := by
  have hbest : after.BestChain := by
    refine hrun.invariant BestChain ?_ (FromGenesis.best_chain env hstart)
    rintro self event _ hinv ⟨horderly, rfl⟩
    exact hinv.apply env horderly
  obtain ⟨tip, hpath, _, hvalid, hmax⟩ := hbest.active
  refine ⟨tip, tip_of_path hpath, hpath, ?_, ?_⟩
  · intro idx hmem
    have hlt := hbest.mem_path_lt hpath hmem
    exact BlockStatus.not_has_failed_of_is_valid (hvalid idx hmem) (hbest.flags (getElem?_entry hlt))
  · intro idx hlt _ hidx
    exact BitVec.not_lt.mpr (hmax idx hlt hidx)

theorem regtest_manager_from_genesis : FromGenesis .op_true .regtest ⟨∅, 0⟩ regtest_manager := by
  have hload : ((ChainstateManager.new .regtest ⟨∅, 0⟩).load_genesis_block .op_true
      regtest_genesis).toOption.isSome = true := by decide +kernel
  unfold FromGenesis regtest_manager
  unfold regtest_genesis at hload ⊢
  split
  · next manager hmanager => exact hmanager
  · next e he =>
    rw [he] at hload
    cases hload

def first_block : Block := regtest_block regtest_genesis [sample_coinbase [0x51, 0x01] 5000000000] 0

/-- The block is connected on top of the tip, and after a block with its header and no transactions
    it is the tip all the same. -/
theorem first_block_best :
    ((regtest_manager.at_connect .op_true first_block regtest_now).all fun reached =>
      decide (parent_of reached.2.arena reached.1 = regtest_manager.chain.tip ∧
        (reached.2.entry reached.1).status.has_failed = false)) = true ∧
    1 ∈ ((regtest_manager.apply .op_true (.block ⟨first_block.header, []⟩ regtest_now none)).apply .op_true
      (.block first_block regtest_now none)).chain.chain ∧
    (((regtest_manager.apply .op_true (.block ⟨first_block.header, []⟩ regtest_now none)).apply .op_true
      (.block first_block regtest_now none)).entry 1).status.has_failed = true := by
  decide +kernel

theorem active_chain_is_best_first_block :
    ∃ tip, (regtest_manager.apply .op_true (.block first_block regtest_now none)).chain.tip = some tip ∧
      ∀ idx ∈ (regtest_manager.apply .op_true (.block first_block regtest_now none)).chain.chain,
        ((regtest_manager.apply .op_true (.block first_block regtest_now none)).entry idx).status.has_failed =
          false := by
  obtain ⟨hcheck, _⟩ := first_block_best
  have horderly : regtest_manager.Orderly .op_true first_block regtest_now none := by
    apply (FromGenesis.best_chain .op_true regtest_manager_from_genesis).orderly_of_child
    intro idx mid tip hreach htip
    rw [hreach] at hcheck
    obtain ⟨hparent, hfailed⟩ := of_decide_eq_true hcheck
    exact ⟨hparent.trans htip, hfailed⟩
  have hstep : regtest_manager.OrderlyEvent .op_true (.block first_block regtest_now none) := horderly
  obtain ⟨tip, htip, _, hvalid, _⟩ := active_chain_is_best .op_true regtest_manager_from_genesis
    (.cons ⟨hstep, rfl⟩ (.nil _))
  exact ⟨tip, htip, hvalid⟩

/-- A block with the header of a valid one and no transactions marks that header as
    failed; the valid block then becomes the tip all the same. -/
theorem active_chain_is_best_fails :
    ∃ after, Run .op_true regtest_manager
        [.block ⟨first_block.header, []⟩ regtest_now none, .block first_block regtest_now none] after ∧
      ∃ idx ∈ after.chain.chain, (after.entry idx).status.has_failed = true := by
  exact ⟨_, .cons rfl (.cons rfl (.nil _)), 1, first_block_best.2⟩

end qubitcoin.chainstate
