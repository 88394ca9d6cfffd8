import Qubitcoin.Chainstate.BestChain

/-! Steps of a chain whose tip is the best one: as long as no block of another branch gets
    more work than the tip, the active chain only grows, by the block that is processed. -/

open qubitcoin primitives transaction block coins params check validation_state chain chainparams
  qubitcoin.validation parentTree transition

namespace qubitcoin.chainstate

namespace ChainstateManager

variable {self : ChainstateManager}

def active_hashes (self : ChainstateManager) : List BlockHash :=
  self.chain.chain.map fun idx => (self.entry idx).block_hash

theorem Updates.block_hash {after : ChainstateManager} (hupdates : Updates self after) (idx : Nat) :
    (after.entry idx).block_hash = (self.entry idx).block_hash := by
  have hhash := congrArg BlockIndex.block_hash (getD_fixed hupdates.fixed idx)
  exact hhash

theorem Updates.active_hashes {after : ChainstateManager} (hupdates : Updates self after)
    (hchain : after.chain = self.chain) : after.active_hashes = self.active_hashes := by
  unfold ChainstateManager.active_hashes
  rw [hchain]
  exact List.map_congr_left fun idx _ => hupdates.block_hash idx

/-- The tip of the active chain is the best one. -/
structure Headed (manager : ChainstateManager) : Prop extends Sound manager where
  tip : ∃ tip, AncestorPath manager.arena tip manager.chain.chain ∧
    manager.best_valid_tip = some (tip, (manager.entry tip).chain_work)

theorem Headed.of_updates (hheaded : self.Headed) {after : ChainstateManager} (hsound : after.Sound)
    (hupdates : Updates self after) (hchain : after.chain = self.chain)
    (htip : after.best_valid_tip = self.best_valid_tip) : after.Headed := by
  obtain ⟨tip, hpath, hbest⟩ := hheaded.tip
  refine ⟨hsound, tip, ?_, ?_⟩
  · rw [hchain]
    exact hupdates.path hpath
  · rw [htip, hupdates.chain_work]
    exact hbest

variable (env : Env)

@[simp] theorem reset_active_chain_to_visible (self : ChainstateManager) (idx : Nat) :
    (self.reset_active_chain_to idx).coins_tip.visible = self.coins_tip.visible := by
  funext outpoint
  rw [CoinsViewCache.visible_eq, CoinsViewCache.visible_eq]
  rfl

@[simp] theorem reset_active_chain_to_base (self : ChainstateManager) (idx : Nat) :
    (self.reset_active_chain_to idx).coins_tip.base = self.coins_tip.base := rfl

theorem reset_active_chain_to_coherent (self : ChainstateManager) (idx : Nat) :
    (self.reset_active_chain_to idx).coins_tip.Coherent ↔ self.coins_tip.Coherent :=
  ⟨fun h => ⟨h.fresh, h.clean⟩, fun h => ⟨h.fresh, h.clean⟩⟩

theorem Indexed.reorganize_child (hindexed : self.Indexed) {tip idx : Nat} (block_reader : BlockReader)
    (hchain : AncestorPath self.arena tip self.chain.chain) (hparent : parent_of self.arena idx = some tip) :
    self.reorganize env block_reader (some idx) idx = (.ok (), self.reset_active_chain_to idx) := by
  have htop : (self.chain.height + 1).toNat = self.chain.chain.length := by
    have hlength := hchain.2.1
    unfold Chain.height
    omega
  unfold reorganize reset_active_chain_to
  dsimp only
  rw [hindexed.build_chain_path_child hchain hparent, find_fork_height_child hchain, heights_down_self,
    hindexed.height_child hchain hparent, heights_up_succ]
  unfold disconnect_loop
  dsimp only
  unfold connect_loop
  rw [htop, List.getElem?_concat_length]
  dsimp only
  rw [if_pos rfl]
  rfl

theorem Indexed.child_hash_not_mem (hindexed : self.Indexed) {tip idx : Nat}
    (hchain : AncestorPath self.arena tip self.chain.chain) (hparent : parent_of self.arena idx = some tip) :
    (self.entry idx).block_hash ∉ self.active_hashes := by
  intro hmem
  obtain ⟨i, hin, hhash⟩ := List.mem_map.mp hmem
  have hlt := (hindexed.tree.parent_lt hparent).2
  have hi := hindexed.mem_path_lt hchain hin
  obtain rfl := hindexed.hash_injective (getElem?_entry hi) (getElem?_entry hlt) hhash
  obtain ⟨h, hat⟩ := List.mem_iff_getElem?.mp hin
  have hheight := hchain.2.height_getElem? hindexed.tree.leveled hat
  have hlevel := hindexed.tree.leveled.child i tip hparent
  have hlength := hchain.2.1
  have := (List.getElem?_eq_some_iff.mp hat).1
  omega

theorem connected_coins_tip (self : ChainstateManager) (idx : Nat) (coins_tip : CoinsViewCache) :
    (self.connected idx coins_tip).coins_tip = coins_tip := by
  unfold connected mark_connected
  dsimp only
  split
  · rfl
  · rfl

theorem Headed.accept_block_header (hheaded : self.Headed) (header : BlockHeader) (now : Int) :
    (self.accept_block_header env header now).2.Headed ∧
      (self.accept_block_header env header now).2.active_hashes = self.active_hashes := by
  have hsound := hheaded.toSound.accept_block_header env header now
  cases haccept : self.accept_block_header env header now with
  | mk result after =>
    rw [haccept] at hsound
    cases result with
    | error e =>
      obtain rfl := accept_block_header_error env haccept
      exact ⟨hheaded, rfl⟩
    | ok idx =>
      obtain ⟨_, rfl⟩ | ⟨prev_idx, _, hcheck, rfl, rfl⟩ := accept_block_header_ok env haccept
      · exact ⟨hheaded, rfl⟩
      · obtain ⟨hfound, _⟩ := check_new_header_ok env hcheck
        have hentry : ∀ {i : Nat}, i < self.arena.length →
            (self.add_header env header prev_idx).entry i = self.entry i :=
          fun hlt => hheaded.entry_add_header env header (hheaded.find_lt hfound) hlt
        obtain ⟨tip, hpath, hbest⟩ := hheaded.tip
        refine ⟨⟨hsound, tip, hheaded.path_add_header env header (hheaded.find_lt hfound) hpath, ?_⟩, ?_⟩
        · rw [hentry hpath.1]
          exact hbest
        · exact List.map_congr_left fun i hmem => by rw [hentry (hheaded.mem_path_lt hpath hmem)]

theorem Headed.mark_failed (hheaded : self.Headed) {idx : Nat} (hidx : idx ≠ 0) (e : Failure BlockValidationState) :
    (self.mark_failed idx e).Headed := by
  refine hheaded.of_updates (hheaded.toSound.mark_failed hidx e) (self.mark_failed_updates idx e)
    (mark_failed_chain idx e) ?_
  cases e <;> rfl

theorem Headed.receive_data (hheaded : self.Headed) (block : Block) (idx : Nat) : (self.receive_data block idx).Headed :=
  hheaded.of_updates (hheaded.toSound.receive_data block idx) (self.receive_data_updates block idx) rfl rfl

theorem Headed.with_coins (hheaded : self.Headed) (coins_tip : CoinsViewCache) : { self with coins_tip }.Headed :=
  hheaded.of_updates (hheaded.toSound.with_coins coins_tip) (.of_index_eq rfl rfl rfl rfl) rfl rfl

theorem Headed.connected_best (hheaded : self.Headed) {tip : Nat} (htip : self.chain.tip = some tip) (idx : Nat)
    (coins_tip : CoinsViewCache) :
    (self.connected idx coins_tip).best_valid_tip =
      if (self.entry tip).chain_work < (self.entry idx).chain_work then some (idx, (self.entry idx).chain_work)
      else self.best_valid_tip := by
  obtain ⟨other, hpath, hbest⟩ := hheaded.tip
  obtain rfl : other = tip := Option.some.inj ((tip_of_path hpath).symm.trans htip)
  have hmark : (self.connected idx coins_tip).best_valid_tip =
      if self.best_valid_tip.all fun best => decide (best.2 < (self.entry idx).chain_work)
      then some (idx, (self.entry idx).chain_work) else self.best_valid_tip :=
    { self with coins_tip }.mark_connected_best idx
  rw [hmark, hbest]
  simp

theorem Headed.activate_child (hheaded : self.Headed) {tip idx : Nat} (block_reader : BlockReader)
    (coins_tip : CoinsViewCache) (htip : self.chain.tip = some tip) (hparent : parent_of self.arena idx = some tip)
    (hmore : (self.entry tip).chain_work < (self.entry idx).chain_work) :
    (self.connected idx coins_tip).activate_best_chain env block_reader (some idx) =
        (.ok (), (self.connected idx coins_tip).reset_active_chain_to idx) ∧
      ((self.connected idx coins_tip).reset_active_chain_to idx).Headed ∧
      ((self.connected idx coins_tip).reset_active_chain_to idx).chain.tip = some idx ∧
      ((self.connected idx coins_tip).reset_active_chain_to idx).active_hashes =
        self.active_hashes ++ [(self.entry idx).block_hash] := by
  obtain ⟨other, hpath, hbest⟩ := hheaded.tip
  obtain rfl : other = tip := Option.some.inj ((tip_of_path hpath).symm.trans htip)
  have hlt := (hheaded.tree.parent_lt hparent).2
  obtain ⟨hupdates, hchain, _⟩ := self.connected_frame idx coins_tip
  have hsound : (self.connected idx coins_tip).Sound := (hheaded.toSound.with_coins coins_tip).mark_connected hlt
  have hbest_tip : (self.connected idx coins_tip).best_valid_tip = some (idx, (self.entry idx).chain_work) :=
    (hheaded.connected_best htip idx coins_tip).trans (if_pos hmore)
  have hpath_after : AncestorPath (self.connected idx coins_tip).arena other
      (self.connected idx coins_tip).chain.chain := by
    rw [hchain]
    exact hupdates.path hpath
  have hparent_after : parent_of (self.connected idx coins_tip).arena idx = some other := by
    rw [hupdates.parent_of]
    exact hparent
  have hlt_after := (hsound.tree.parent_lt hparent_after).2
  have hreorganize := hsound.reorganize_child env block_reader hpath_after hparent_after
  obtain ⟨hsound_after, hnew, _⟩ := hsound.reorganize env block_reader (some idx) hlt_after
  rw [hreorganize] at hsound_after hnew
  have hnew := hnew rfl
  refine ⟨?_, ⟨hsound_after, idx, hnew, ?_⟩, tip_of_path hnew, ?_⟩
  · have hne : some other ≠ some idx := by
      intro heq
      obtain rfl := Option.some.inj heq
      exact BitVec.lt_irrefl _ hmore
    unfold activate_best_chain
    rw [hbest_tip]
    dsimp only
    rw [tip_of_path hpath_after, if_neg hne, hreorganize]
  · exact hbest_tip.trans (congrArg (fun work => some (idx, work)) (hupdates.chain_work idx).symm)
  · have hchain_after : ((self.connected idx coins_tip).reset_active_chain_to idx).chain.chain =
        self.chain.chain ++ [idx] :=
      hnew.2.unique (hupdates.path ⟨hlt, hpath.2.child hheaded.tree.leveled hparent⟩).2
    unfold active_hashes
    rw [hchain_after, List.map_append, List.map_singleton]
    congr 1
    · exact List.map_congr_left fun i _ => hupdates.block_hash i
    · exact congrArg (fun hash => [hash]) (hupdates.block_hash idx)

theorem Headed.activate_stays (hheaded : self.Headed) {tip idx : Nat} (block_reader : BlockReader)
    (coins_tip : CoinsViewCache) (htip : self.chain.tip = some tip) (hlt : idx < self.arena.length)
    (hmore : ¬ (self.entry tip).chain_work < (self.entry idx).chain_work) :
    (self.connected idx coins_tip).activate_best_chain env block_reader (some idx) =
        (.ok (), self.connected idx coins_tip) ∧
      (self.connected idx coins_tip).Headed ∧ (self.connected idx coins_tip).active_hashes = self.active_hashes := by
  obtain ⟨other, hpath, hbest⟩ := hheaded.tip
  obtain rfl : other = tip := Option.some.inj ((tip_of_path hpath).symm.trans htip)
  obtain ⟨hupdates, hchain, _⟩ := self.connected_frame idx coins_tip
  have hsound : (self.connected idx coins_tip).Sound := (hheaded.toSound.with_coins coins_tip).mark_connected hlt
  have hbest_tip : (self.connected idx coins_tip).best_valid_tip = self.best_valid_tip :=
    (hheaded.connected_best htip idx coins_tip).trans (if_neg hmore)
  refine ⟨?_, hheaded.of_updates hsound hupdates hchain hbest_tip, hupdates.active_hashes hchain⟩
  unfold activate_best_chain
  rw [hbest_tip, hbest]
  dsimp only
  rw [hchain, htip, if_pos rfl]

/-- A block that is connected and has more work than the active tip is its child. -/
def Climbs (self : ChainstateManager) (block : Block) (now : Int) : Prop :=
  ∀ idx mid undo coins_tip tip, self.at_connect env block now = some (idx, mid) →
    mid.connect_new_block env block idx = (.ok undo, coins_tip) →
    self.chain.tip = some tip → (mid.entry tip).chain_work < (mid.entry idx).chain_work →
    parent_of mid.arena idx = some tip

/-- What a block does to the active chain: nothing, and it is not the tip; nothing, because
    it is the tip already; or it is appended. -/
inductive Advance (before : List BlockHash) (hash : BlockHash) :
    Except (Failure BlockValidationState) (Bool × Option BlockUndo) → List BlockHash → Prop where
  | stays {result : Except (Failure BlockValidationState) (Bool × Option BlockUndo)}
      (hresult : ∀ undo, result ≠ .ok (true, undo)) : Advance before hash result before
  | repeated (undo : Option BlockUndo) (htip : before.getLast? = some hash) :
      Advance before hash (.ok (true, undo)) before
  | grows (undo : BlockUndo) (hnew : hash ∉ before) :
      Advance before hash (.ok (true, some undo)) (before ++ [hash])

theorem active_hashes_getLast? {tip : Nat} (htip : self.chain.tip = some tip) :
    self.active_hashes.getLast? = some (self.entry tip).block_hash := by
  unfold active_hashes
  rw [List.getLast?_map]
  exact congrArg (Option.map fun idx => (self.entry idx).block_hash) htip

theorem Advance.unchanged {idx : Nat} {hash : BlockHash} (hhash : (self.entry idx).block_hash = hash)
    (undo : Option BlockUndo) :
    Advance self.active_hashes hash (.ok (decide (self.chain.tip = some idx), undo)) self.active_hashes := by
  by_cases htip : self.chain.tip = some idx
  · rw [decide_eq_true htip]
    refine .repeated undo ?_
    rw [active_hashes_getLast? htip, hhash]
  · rw [decide_eq_false htip]
    exact .stays nofun

theorem Headed.received (hheaded : self.Headed) {block : Block} {now : Int} {idx : Nat} {mid : ChainstateManager}
    (hheader : self.accept_block_header env block.header now = (.ok idx, mid)) :
    (mid.receive_data block idx).Headed ∧ (mid.receive_data block idx).active_hashes = self.active_hashes ∧
      idx < (mid.receive_data block idx).arena.length ∧
      ((mid.receive_data block idx).entry idx).block_hash = block.block_hash env.hash256 := by
  obtain ⟨hmid, hhashes⟩ := hheaded.accept_block_header env block.header now
  have hfound := (hheaded.toIndexed.accept_block_header env block.header now).2 idx
  rw [hheader] at hmid hhashes hfound
  have hupdates := mid.receive_data_updates block idx
  obtain ⟨index, hat, hhash⟩ := hmid.by_hash.mp (hfound rfl)
  refine ⟨hmid.receive_data block idx, (hupdates.active_hashes rfl).trans hhashes, ?_, ?_⟩
  · rw [hupdates.length]
    exact hmid.find_lt (hfound rfl)
  · rw [hupdates.block_hash, entry_eq hat]
    exact hhash

theorem Headed.process_new_block (hheaded : self.Headed) {block : Block} {now : Int} (block_reader : BlockReader)
    (hclimbs : self.Climbs env block now) :
    (self.process_new_block env block now block_reader).2.Headed ∧
      Advance self.active_hashes (block.block_hash env.hash256) (self.process_new_block env block now block_reader).1
        (self.process_new_block env block now block_reader).2.active_hashes := by
  obtain ⟨hstart, hstart_hashes⟩ := hheaded.accept_block_header env block.header now
  have hfound := (hheaded.toIndexed.accept_block_header env block.header now).2
  have hhash : ∀ {idx mid}, self.accept_block_header env block.header now = (.ok idx, mid) →
      mid.Headed ∧ mid.active_hashes = self.active_hashes ∧ idx < mid.arena.length ∧
        (mid.entry idx).block_hash = block.block_hash env.hash256 := by
    intro idx mid hheader
    rw [hheader] at hstart hstart_hashes hfound
    obtain ⟨index, hat, hhash⟩ := hstart.by_hash.mp (hfound idx rfl)
    refine ⟨hstart, hstart_hashes, hstart.find_lt (hfound idx rfl), ?_⟩
    rw [entry_eq hat]
    exact hhash
  have hbody : ∀ {idx mid}, self.accept_block_header env block.header now = (.ok idx, mid) →
      mid.is_connected idx = false → idx ≠ 0 := by
    rintro idx mid hheader hknown rfl
    rw [(hhash hheader).1.is_connected_genesis] at hknown
    cases hknown
  have hprocessed := self.process_new_block_processed env block now block_reader
  generalize (self.process_new_block env block now block_reader).1 = result at hprocessed ⊢
  generalize (self.process_new_block env block now block_reader).2 = after at hprocessed ⊢
  cases hprocessed with
  | header _ => exact ⟨hheaded, .stays nofun⟩
  | @known idx _ hheader _ =>
    obtain ⟨hmid, hhashes, _, hhash⟩ := hhash hheader
    exact ⟨hmid, hhashes ▸ Advance.unchanged hhash none⟩
  | @body idx mid e hheader hknown _ =>
    obtain ⟨hmid, hhashes, _⟩ := hhash hheader
    refine ⟨hmid.mark_failed (hbody hheader hknown) _, ?_⟩
    rw [(mid.mark_failed_updates idx e).active_hashes (mark_failed_chain idx e), hhashes]
    exact .stays nofun
  | @context idx mid e hheader hknown _ _ =>
    obtain ⟨hmid, hhashes, _⟩ := hhash hheader
    refine ⟨(hmid.receive_data block _).mark_failed (hbody hheader hknown) _, ?_⟩
    rw [((mid.receive_data block idx).mark_failed_updates idx e).active_hashes (mark_failed_chain idx e),
      (mid.receive_data_updates block idx).active_hashes rfl, hhashes]
    exact .stays nofun
  | @connect idx mid e coins_tip hheader hknown _ _ _ =>
    obtain ⟨hmid, hhashes, _⟩ := hhash hheader
    refine ⟨((hmid.receive_data block _).with_coins coins_tip).mark_failed (hbody hheader hknown) _, ?_⟩
    have hfailed : ({ mid.receive_data block idx with coins_tip }.mark_failed idx e).active_hashes =
        { mid.receive_data block idx with coins_tip }.active_hashes :=
      (mark_failed_updates _ idx e).active_hashes (mark_failed_chain idx e)
    have hkept : { mid.receive_data block idx with coins_tip }.active_hashes = self.active_hashes :=
      ((mid.receive_data_updates block idx).active_hashes rfl).trans hhashes
    rw [hfailed, hkept]
    exact .stays nofun
  | @activate idx mid after undo coins_tip result hheader hknown hcheck hcontext hconnect hactivate =>
    obtain ⟨hreceived, hreceived_hashes, hlt, hhash⟩ := hheaded.received env hheader
    have hreach : self.at_connect env block now = some (idx, mid.receive_data block idx) :=
      (at_connect_eq_some env).mpr ⟨mid, hheader, hknown, hcheck, hcontext, rfl⟩
    obtain ⟨_, hchain, _⟩ := at_connect_frame env hreach
    obtain ⟨tip, hpath, _⟩ := hreceived.tip
    have htip := tip_of_path hpath
    by_cases hmore : ((mid.receive_data block idx).entry tip).chain_work <
        ((mid.receive_data block idx).entry idx).chain_work
    · have hparent := hclimbs idx _ undo coins_tip tip hreach hconnect (hchain ▸ htip) hmore
      obtain ⟨hrun, hafter, hafter_tip, hafter_hashes⟩ :=
        hreceived.activate_child env block_reader coins_tip htip hparent hmore
      rw [hrun] at hactivate
      cases hactivate
      have hnew := hreceived.child_hash_not_mem hpath hparent
      rw [hreceived_hashes, hhash] at hnew
      refine ⟨hafter, ?_⟩
      rw [hafter_hashes, hreceived_hashes, hhash]
      change Advance _ _ (.ok (decide _, some undo)) _
      rw [decide_eq_true hafter_tip]
      exact .grows undo hnew
    · obtain ⟨hrun, hafter, hafter_hashes⟩ := hreceived.activate_stays env block_reader coins_tip htip hlt hmore
      rw [hrun] at hactivate
      cases hactivate
      have hconnected := (mid.receive_data block idx).connected_frame idx coins_tip
      rw [← hconnected.1.block_hash] at hhash
      exact ⟨hafter, hreceived_hashes ▸ hafter_hashes ▸ Advance.unchanged hhash (some undo)⟩

end ChainstateManager

end qubitcoin.chainstate
