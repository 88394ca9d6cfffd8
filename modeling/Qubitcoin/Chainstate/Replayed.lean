import Qubitcoin.Chainstate.Headed

/-! The coins against the replay of the active chain. They agree as long as every
    block that is connected extends the active tip, and every block that is refused
    at its connection has changed nothing. -/

open qubitcoin primitives transaction block coins params check validation_state chain chainparams
  qubitcoin.validation parentTree transition

namespace qubitcoin.chainstate

/-- The blocks that were connected, by their hash. -/
abbrev StoredBlocks := BlockHash → Option Block

/-- A block applied to the coins at a height. -/
def apply_block (stored : StoredBlocks) (coins : CoinsMap) (at_height : BlockHash × Nat) : Option CoinsMap :=
  (stored at_height.1).map fun block => coins.apply_txs (as_u32 at_height.2) block.vtx

/-- The coins of a chain: its blocks applied in height order, from no coins. -/
def replay (stored : StoredBlocks) (hashes : List BlockHash) : Option CoinsMap :=
  hashes.zipIdx.foldlM (apply_block stored) fun _ => none

theorem replay_concat (stored : StoredBlocks) (hashes : List BlockHash) (hash : BlockHash) :
    replay stored (hashes ++ [hash]) =
      (replay stored hashes).bind fun coins => apply_block stored coins (hash, hashes.length) := by
  unfold replay
  rw [List.zipIdx_append, List.foldlM_append]
  simp

theorem replay_congr {stored other : StoredBlocks} {hashes : List BlockHash}
    (hagree : ∀ hash ∈ hashes, stored hash = other hash) : replay stored hashes = replay other hashes := by
  unfold replay
  generalize 0 = start
  generalize (fun _ : OutPoint => (none : Option Coin)) = coins
  induction hashes generalizing start coins with
  | nil => rfl
  | cons hash rest ih =>
    rw [List.zipIdx_cons, List.foldlM_cons, List.foldlM_cons]
    have hhead : apply_block stored coins (hash, start) = apply_block other coins (hash, start) := by
      unfold apply_block
      rw [hagree hash (by simp)]
    rw [hhead]
    cases apply_block other coins (hash, start) with
    | none => rfl
    | some coins => exact ih (fun hash hmem => hagree hash (List.mem_cons_of_mem _ hmem)) _ coins

def store_block (env : Env) (stored : StoredBlocks) (block : Block) :
    Except (Failure BlockValidationState) (Bool × Option BlockUndo) → StoredBlocks
  | .ok (_, some _) => Function.update stored (block.block_hash env.hash256) (some block)
  | _ => stored

namespace ChainstateManager

variable {self : ChainstateManager} {stored : StoredBlocks}

/-- The coins are the replay of the active chain, whose tip is the best one. -/
structure Replayed (manager : ChainstateManager) (stored : StoredBlocks) : Prop extends Sound manager where
  tip : ∃ tip, AncestorPath manager.arena tip manager.chain.chain ∧
    manager.best_valid_tip = some (tip, (manager.entry tip).chain_work)
  coherent : manager.coins_tip.Coherent
  coins : replay stored manager.active_hashes = some manager.coins_tip.visible

theorem Replayed.headed (hreplayed : self.Replayed stored) : self.Headed := ⟨hreplayed.toSound, hreplayed.tip⟩

theorem Replayed.of_updates (hreplayed : self.Replayed stored) {after : ChainstateManager} (hsound : after.Sound)
    (hupdates : Updates self after) (hchain : after.chain = self.chain)
    (htip : after.best_valid_tip = self.best_valid_tip) (hcoherent : after.coins_tip.Coherent)
    (hvisible : after.coins_tip.visible = self.coins_tip.visible) : after.Replayed stored := by
  refine ⟨hsound, (hreplayed.headed.of_updates hsound hupdates hchain htip).tip, hcoherent, ?_⟩
  rw [hupdates.active_hashes hchain, hvisible]
  exact hreplayed.coins

variable (env : Env)

theorem Replayed.accept_block_header (hreplayed : self.Replayed stored) (header : BlockHeader) (now : Int) :
    (self.accept_block_header env header now).2.Replayed stored := by
  obtain ⟨hheaded, hhashes⟩ := hreplayed.headed.accept_block_header env header now
  have hcoins := (self.accept_block_header_frame env header now).2.2.1
  refine ⟨hheaded.toSound, hheaded.tip, ?_, ?_⟩
  · rw [hcoins]
    exact hreplayed.coherent
  · rw [hhashes, hcoins]
    exact hreplayed.coins

theorem Replayed.activate (hreplayed : self.Replayed stored) {tip idx : Nat} {block : Block}
    {coins_tip : CoinsViewCache} (block_reader : BlockReader) (htip : self.chain.tip = some tip)
    (hparent : parent_of self.arena idx = some tip)
    (hmore : (self.entry tip).chain_work < (self.entry idx).chain_work)
    (hhash : (self.entry idx).block_hash = block.block_hash env.hash256) (hcoherent : coins_tip.Coherent)
    (hvisible : coins_tip.visible =
      self.coins_tip.visible.apply_txs (as_u32 (self.entry idx).height) block.vtx) :
    ∃ after, (self.connected idx coins_tip).activate_best_chain env block_reader (some idx) = (.ok (), after) ∧
      after.Replayed (Function.update stored (block.block_hash env.hash256) (some block)) ∧
      after.coins_tip.base = coins_tip.base := by
  obtain ⟨hrun, hheaded, _, hhashes⟩ :=
    hreplayed.headed.activate_child env block_reader coins_tip htip hparent hmore
  obtain ⟨other, hpath, _⟩ := hreplayed.tip
  obtain rfl : other = tip := Option.some.inj ((tip_of_path hpath).symm.trans htip)
  have hcoins := self.connected_coins_tip idx coins_tip
  refine ⟨_, hrun, ⟨hheaded.toSound, hheaded.tip, ?_, ?_⟩, ?_⟩
  · rw [reset_active_chain_to_coherent, hcoins]
    exact hcoherent
  · -- The chain is the old one and the block, which is stored under a new hash.
    have hnot := hreplayed.child_hash_not_mem hpath hparent
    have hkept : replay (Function.update stored (block.block_hash env.hash256) (some block)) self.active_hashes =
        replay stored self.active_hashes :=
      replay_congr fun hash hmem => Function.update_of_ne (fun heq => hnot (by rwa [hhash, ← heq])) _ _
    have hheight : (self.active_hashes.length : Int) = (self.entry idx).height := by
      rw [hreplayed.height_child hpath hparent]
      unfold active_hashes Chain.height
      rw [List.length_map]
      omega
    rw [hhashes, replay_concat, hkept, hreplayed.coins, reset_active_chain_to_visible, hcoins, hvisible, Option.bind_some]
    unfold apply_block
    rw [hhash, Function.update_self, hheight]
    rfl
  · rw [reset_active_chain_to_base, hcoins]

/-- A block that is connected is a child of the active tip and has more work, and a
    block that is refused at its connection leaves the coins. The connection does not
    stop the program. -/
def ExtendsTip (self : ChainstateManager) (block : Block) (now : Int) : Prop :=
  ∀ idx mid, self.at_connect env block now = some (idx, mid) →
    match (mid.connect_new_block env block idx).1 with
    | .ok _ => ∃ tip, self.chain.tip = some tip ∧ parent_of mid.arena idx = some tip ∧
        (mid.entry tip).chain_work < (mid.entry idx).chain_work
    | .error (.invalid _) => LeavesCoins env self.coins_tip.visible block (mid.entry idx).height
        self.params.consensus (some (mid.mtp_lookup block.header.time.toNat))
    | .error (.panic _) => False

theorem ExtendsTip.climbs {block : Block} {now : Int} (hextends : self.ExtendsTip env block now) :
    self.Climbs env block now := by
  intro idx mid undo coins_tip tip hreach hconnect htip _
  have hstep := hextends idx mid hreach
  rw [hconnect] at hstep
  obtain ⟨other, hother, hparent, _⟩ := hstep
  obtain rfl : other = tip := Option.some.inj (hother.symm.trans htip)
  exact hparent

theorem Replayed.mark_failed (hreplayed : self.Replayed stored) {idx : Nat} (hidx : idx ≠ 0)
    (e : Failure BlockValidationState) : (self.mark_failed idx e).Replayed stored := by
  refine hreplayed.of_updates (hreplayed.toSound.mark_failed hidx e) (self.mark_failed_updates idx e)
    (mark_failed_chain idx e) ?_ ?_ ?_
  · cases e <;> rfl
  · rw [mark_failed_coins_tip]
    exact hreplayed.coherent
  · rw [mark_failed_coins_tip]

theorem Replayed.receive_data (hreplayed : self.Replayed stored) (block : Block) (idx : Nat) :
    (self.receive_data block idx).Replayed stored :=
  hreplayed.of_updates (hreplayed.toSound.receive_data block idx) (self.receive_data_updates block idx) rfl rfl
    hreplayed.coherent rfl

theorem Replayed.with_coins (hreplayed : self.Replayed stored) {coins_tip : CoinsViewCache}
    (hcoherent : coins_tip.Coherent) (hvisible : coins_tip.visible = self.coins_tip.visible) :
    { self with coins_tip }.Replayed stored :=
  hreplayed.of_updates (hreplayed.toSound.with_coins coins_tip) (.of_index_eq rfl rfl rfl rfl) rfl rfl hcoherent
    hvisible

theorem Replayed.process_new_block (hreplayed : self.Replayed stored) {block : Block} {now : Int}
    (block_reader : BlockReader)
    (hunshadowed : (self.at_connect env block now).isSome = true → Unshadowed self.coins_tip block.vtx)
    (hextends : self.ExtendsTip env block now) :
    (self.process_new_block env block now block_reader).2.Replayed
        (store_block env stored block (self.process_new_block env block now block_reader).1) ∧
      (self.process_new_block env block now block_reader).2.coins_tip.base = self.coins_tip.base := by
  have hstart := hreplayed.accept_block_header env block.header now
  have hstart_base : (self.accept_block_header env block.header now).2.coins_tip.base = self.coins_tip.base := by
    rw [(self.accept_block_header_frame env block.header now).2.2.1]
  have hfound := (hreplayed.toIndexed.accept_block_header env block.header now).2
  have hbody : ∀ {idx mid}, self.accept_block_header env block.header now = (.ok idx, mid) →
      mid.is_connected idx = false → mid.Replayed stored ∧ idx ≠ 0 ∧ mid.coins_tip.base = self.coins_tip.base := by
    intro idx mid hheader hknown
    rw [hheader] at hstart hstart_base
    refine ⟨hstart, ?_, hstart_base⟩
    rintro rfl
    rw [hstart.is_connected_genesis] at hknown
    cases hknown
  have hprocessed := self.process_new_block_processed env block now block_reader
  generalize (self.process_new_block env block now block_reader).1 = result at hprocessed
  generalize (self.process_new_block env block now block_reader).2 = after at hprocessed
  cases hprocessed with
  | header _ => exact ⟨hreplayed, rfl⟩
  | known hheader _ =>
    rw [hheader] at hstart hstart_base
    exact ⟨hstart, hstart_base⟩
  | body hheader hknown _ =>
    obtain ⟨hmid, hne, hbase⟩ := hbody hheader hknown
    refine ⟨hmid.mark_failed hne _, ?_⟩
    rw [mark_failed_coins_tip]
    exact hbase
  | context hheader hknown _ _ =>
    obtain ⟨hmid, hne, hbase⟩ := hbody hheader hknown
    refine ⟨(hmid.receive_data block _).mark_failed hne _, ?_⟩
    rw [mark_failed_coins_tip]
    exact hbase
  | @connect idx mid e coins_tip hheader hknown hcheck hcontext hconnect =>
    obtain ⟨hmid, hne, hbase⟩ := hbody hheader hknown
    have hreach : self.at_connect env block now = some (idx, mid.receive_data block idx) :=
      (at_connect_eq_some env).mpr ⟨mid, hheader, hknown, hcheck, hcontext, rfl⟩
    obtain ⟨hparams, _, hcoins, _⟩ := at_connect_frame env hreach
    have hstep := hextends idx _ hreach
    rw [hconnect] at hstep
    unfold connect_new_block at hconnect
    rw [hcoins, hparams] at hconnect
    cases e with
    | panic why => exact hstep.elim
    | invalid state =>
      obtain ⟨hcoherent, hafter_base, _⟩ :=
        connect_block_applied env hreplayed.coherent (hunshadowed (by rw [hreach]; rfl)) hconnect nofun
      have hvisible := (connect_block_rejected env (check_block_ok env hcheck) hconnect).1 hstep
      have hkept : (mid.receive_data block idx).coins_tip.visible = self.coins_tip.visible := by rw [hcoins]
      refine ⟨((hmid.receive_data block idx).with_coins hcoherent (hvisible.trans hkept.symm)).mark_failed hne _, ?_⟩
      rw [mark_failed_coins_tip]
      exact hafter_base
  | @activate idx mid after undo coins_tip result hheader hknown hcheck hcontext hconnect hactivate =>
    obtain ⟨hmid, hne, hbase⟩ := hbody hheader hknown
    have hreach : self.at_connect env block now = some (idx, mid.receive_data block idx) :=
      (at_connect_eq_some env).mpr ⟨mid, hheader, hknown, hcheck, hcontext, rfl⟩
    obtain ⟨hparams, hchain, hcoins, _⟩ := at_connect_frame env hreach
    have hstep := hextends idx _ hreach
    rw [hconnect] at hstep
    obtain ⟨tip, htip, hparent, hmore⟩ := hstep
    unfold connect_new_block at hconnect
    rw [hcoins, hparams] at hconnect
    obtain ⟨hcoherent, hafter_base, happlied⟩ :=
      connect_block_applied env hreplayed.coherent (hunshadowed (by rw [hreach]; rfl)) hconnect nofun
    have happlied := happlied undo rfl
    rw [← hcoins] at happlied
    rw [← hchain] at htip
    have hhash : ((mid.receive_data block idx).entry idx).block_hash = block.block_hash env.hash256 := by
      rw [hheader] at hfound
      obtain ⟨index, hat, hhash⟩ := hmid.by_hash.mp (hfound idx rfl)
      rw [(receive_data_updates mid block idx).block_hash, entry_eq hat]
      exact hhash
    obtain ⟨active, hrun, hactive, hactive_base⟩ := (hmid.receive_data block idx).activate env block_reader htip
      hparent hmore hhash hcoherent happlied
    rw [hrun] at hactivate
    cases hactivate
    exact ⟨hactive, hactive_base.trans hafter_base⟩

end ChainstateManager

open ChainstateManager

variable (env : Env)

def genesis_store (params : ChainParams) : StoredBlocks :=
  Function.update (fun _ => none) ((params.create_genesis_block env.hash256).block_hash env.hash256)
    (some (params.create_genesis_block env.hash256))

theorem FromGenesis.replayed {params : ChainParams} {base : CoinsViewDB} {start : ChainstateManager}
    (hempty : ∀ outpoint, base.get_coin outpoint = none) (hstart : FromGenesis env params base start) :
    start.Replayed (genesis_store env params) ∧ start.coins_tip.base = base := by
  have hsound := FromGenesis.sound env hstart
  obtain ⟨coins_tip, hcoins, rfl⟩ := load_genesis_block_new env hstart
  obtain ⟨hvisible, hbase, _, hcoherent⟩ := add_outputs_spec hcoins
  have hcoherent := hcoherent (CoinsViewCache.new_coherent base) fun _ _ _ _ => hempty _
  have hnone : (CoinsViewCache.new base).visible = fun _ => none := by
    rw [CoinsViewCache.new_visible]
    exact funext hempty
  refine ⟨⟨hsound, ⟨0, ⟨by simp [arena], rfl, ?_⟩, rfl⟩, ⟨hcoherent.fresh, hcoherent.clean⟩, ?_⟩, hbase⟩
  · intro h hle
    obtain rfl : h = 0 := Nat.le_zero.mp hle
    rfl
  · have hset : (coins_tip.set_best_block ((params.create_genesis_block env.hash256).block_hash env.hash256)).visible =
        coins_tip.visible := by
      funext outpoint
      rw [CoinsViewCache.visible_eq, CoinsViewCache.visible_eq]
      rfl
    have hsingle := replay_concat (genesis_store env params) []
      ((params.create_genesis_block env.hash256).block_hash env.hash256)
    unfold apply_block genesis_store at hsingle
    rw [Function.update_self] at hsingle
    dsimp only
    rw [hset, hvisible, hnone]
    exact hsingle

def record (self : ChainstateManager) (stored : StoredBlocks) : Event → StoredBlocks
  | .block block now block_reader =>
    store_block env stored block (self.process_new_block env block now block_reader).1
  | _ => stored

def ExtendsTipEvent (self : ChainstateManager) : Event → Prop
  | .block block now _ => self.ExtendsTip env block now
  | _ => True

/-- A step that extends the tip, with the blocks that are stored. -/
def ExtendingStep (state : ChainstateManager × StoredBlocks) (event : Event)
    (next : ChainstateManager × StoredBlocks) : Prop :=
  ExtendsTipEvent env state.1 event ∧ next = (state.1.apply env event, record env state.1 state.2 event)

variable {self : ChainstateManager} {stored : StoredBlocks}

theorem ExtendingStep.intro (stored : StoredBlocks) {event : Event} (hextends : ExtendsTipEvent env self event) :
    ExtendingStep env (self, stored) event (self.apply env event, record env self stored event) := ⟨hextends, rfl⟩

theorem Replayed.set_pos (hreplayed : self.Replayed stored) (idx : Nat) {update : BlockIndex → BlockIndex}
    (hfixed : ∀ index, (update index).fixed = index.fixed) (hstatus : ∀ index, (update index).status = index.status) :
    (self.update_entry idx update).Replayed stored :=
  hreplayed.of_updates (Sound.set_pos hreplayed.toSound idx hfixed hstatus) (.update_entry self idx hfixed) rfl rfl
    hreplayed.coherent rfl

theorem Replayed.apply (hreplayed : self.Replayed stored) {event : Event}
    (hunshadowed : ∀ {block now block_reader}, event = .block block now block_reader →
      Unshadowed self.coins_tip block.vtx) (hextends : ExtendsTipEvent env self event) :
    (self.apply env event).Replayed (record env self stored event) ∧
      (self.apply env event).coins_tip.base = self.coins_tip.base := by
  cases event with
  | block block now block_reader =>
    exact hreplayed.process_new_block env block_reader (fun _ => hunshadowed rfl) hextends
  | header header now =>
    refine ⟨hreplayed.accept_block_header env header now, ?_⟩
    exact congrArg CoinsViewCache.base (self.accept_block_header_frame env header now).2.2.1
  | file_pos hash file data_pos =>
    unfold ChainstateManager.apply set_file_pos
    dsimp only
    split
    · next idx _ => exact ⟨Replayed.set_pos hreplayed idx (fun _ => rfl) fun _ => rfl, rfl⟩
    · exact ⟨hreplayed, rfl⟩
  | undo_pos hash undo_pos =>
    unfold ChainstateManager.apply set_undo_pos
    dsimp only
    split
    · next idx _ => exact ⟨Replayed.set_pos hreplayed idx (fun _ => rfl) fun _ => rfl, rfl⟩
    · exact ⟨hreplayed, rfl⟩
  | assume_valid hash =>
    exact ⟨⟨Sound.apply env hreplayed.toSound (.assume_valid hash), hreplayed.tip, hreplayed.coherent,
      hreplayed.coins⟩, rfl⟩

/-- In every run from genesis, over a database without coins, whose steps extend
    the tip, the coins are the replay of the active chain. -/
theorem coins_are_replay {params : ChainParams} {base : CoinsViewDB} {start after : ChainstateManager}
    {stored : StoredBlocks} {events : List Event} (hempty : ∀ outpoint, base.get_coin outpoint = none)
    (hstart : FromGenesis env params base start)
    (hrun : Trace (ExtendingStep env) (start, genesis_store env params) events (after, stored)) :
    replay stored after.active_hashes = some after.coins_tip.visible := by
  have hinv : after.Replayed stored ∧ after.coins_tip.base = base := by
    refine hrun.invariant (fun state => state.1.Replayed state.2 ∧ state.1.coins_tip.base = base) ?_
      (FromGenesis.replayed env hempty hstart)
    rintro ⟨self, stored⟩ event _ ⟨hreplayed, hbase⟩ ⟨hextends, rfl⟩
    have hnone : ∀ outpoint, self.coins_tip.base.get_coin outpoint = none := by
      rw [hbase]
      exact hempty
    obtain ⟨hafter, hafter_base⟩ := Replayed.apply env hreplayed
      (fun {block} _ _ _ => Unshadowed.of_empty hnone block.vtx) hextends
    exact ⟨hafter, hafter_base.trans hbase⟩
  exact hinv.1.coins

/-- Another valid block on top of genesis, with the same work. -/
def rival_block : Block := regtest_block regtest_genesis [sample_coinbase [0x51, 0x02] 5000000000] 4

theorem first_block_replayed :
    ((regtest_manager.at_connect .op_true first_block regtest_now).all fun reached =>
      (reached.2.connect_new_block .op_true first_block reached.1).1.toOption.isSome &&
        decide (regtest_manager.chain.tip = some 0 ∧ parent_of reached.2.arena reached.1 = some 0 ∧
          (reached.2.entry 0).chain_work < (reached.2.entry reached.1).chain_work)) = true ∧
    ((replay (record .op_true (regtest_manager.apply .op_true (.block first_block regtest_now none))
        (record .op_true regtest_manager (genesis_store .op_true .regtest) (.block first_block regtest_now none))
        (.block rival_block regtest_now none))
      ((regtest_manager.apply .op_true (.block first_block regtest_now none)).apply .op_true
        (.block rival_block regtest_now none)).active_hashes).bind fun coins =>
          coins ⟨(sample_coinbase [0x51, 0x02] 5000000000).txid, 0⟩) ≠
      ((regtest_manager.apply .op_true (.block first_block regtest_now none)).apply .op_true
        (.block rival_block regtest_now none)).coins_tip.visible ⟨(sample_coinbase [0x51, 0x02] 5000000000).txid, 0⟩ := by
  decide +kernel

theorem coins_are_replay_first_block :
    replay (record .op_true regtest_manager (genesis_store .op_true .regtest) (.block first_block regtest_now none))
        (regtest_manager.apply .op_true (.block first_block regtest_now none)).active_hashes =
      some (regtest_manager.apply .op_true (.block first_block regtest_now none)).coins_tip.visible := by
  obtain ⟨hcheck, _⟩ := first_block_replayed
  have hextends : ExtendsTipEvent .op_true regtest_manager (.block first_block regtest_now none) := by
    intro idx mid hreach
    rw [hreach] at hcheck
    obtain ⟨hok, hchild⟩ := Bool.and_eq_true_iff.mp hcheck
    split
    · exact ⟨0, of_decide_eq_true hchild⟩
    · next heq => rw [heq] at hok; cases hok
    · next heq => rw [heq] at hok; cases hok
  have hempty : ∀ outpoint, (⟨∅, 0⟩ : CoinsViewDB).get_coin outpoint = none := fun _ => rfl
  have hrun := Trace.cons (ExtendingStep.intro .op_true (genesis_store .op_true .regtest) hextends) (.nil _)
  exact coins_are_replay .op_true hempty regtest_manager_from_genesis hrun

/-- The second of two blocks with the same work is connected to the coins, though
    the first one stays the tip. -/
theorem coins_are_replay_fails :
    ∃ after stored, Trace (fun state event next =>
        next = (state.1.apply .op_true event, record .op_true state.1 state.2 event))
        (regtest_manager, genesis_store .op_true .regtest)
        [.block first_block regtest_now none, .block rival_block regtest_now none] (after, stored) ∧
      replay stored after.active_hashes ≠ some after.coins_tip.visible := by
  refine ⟨_, _, .cons rfl (.cons rfl (.nil _)), fun hsame => first_block_replayed.2 ?_⟩
  rw [hsame, Option.bind_some]

end qubitcoin.chainstate

/-! What of a manager its invariants read, and the operations that record where a block is. -/

namespace qubitcoin.chainstate

namespace ChainstateManager

variable {self after : ChainstateManager}

theorem Sound.congr (hsound : self.Sound) (hindex : after.block_index = self.block_index)
    (hchain : after.chain = self.chain) (hbest : after.best_valid_tip = self.best_valid_tip) : after.Sound := by
  cases self
  cases after
  cases hindex
  cases hchain
  cases hbest
  exact ⟨⟨hsound.tree, hsound.nonempty, hsound.by_hash, hsound.root, hsound.child, hsound.height_lt⟩, hsound.chain,
    hsound.best, hsound.genesis, hsound.flags⟩

theorem Headed.congr (hheaded : self.Headed) (hindex : after.block_index = self.block_index)
    (hchain : after.chain = self.chain) (hbest : after.best_valid_tip = self.best_valid_tip) : after.Headed := by
  refine ⟨hheaded.toSound.congr hindex hchain hbest, ?_⟩
  cases self
  cases after
  cases hindex
  cases hchain
  cases hbest
  exact hheaded.tip

theorem active_hashes_congr (hindex : after.block_index = self.block_index) (hchain : after.chain = self.chain) :
    after.active_hashes = self.active_hashes := by
  unfold active_hashes entry
  rw [hindex, hchain]

theorem Headed.set_pos (hheaded : self.Headed) (idx : Nat) {update : BlockIndex → BlockIndex}
    (hfixed : ∀ index, (update index).fixed = index.fixed) (hstatus : ∀ index, (update index).status = index.status) :
    (self.update_entry idx update).Headed ∧ (self.update_entry idx update).active_hashes = self.active_hashes :=
  ⟨hheaded.of_updates (Sound.set_pos hheaded.toSound idx hfixed hstatus) (.update_entry self idx hfixed) rfl rfl,
    (Updates.update_entry self idx hfixed).active_hashes rfl⟩

theorem Headed.set_file_pos (hheaded : self.Headed) (hash : BlockHash) (file : Int32) (data_pos : UInt32) :
    (self.set_file_pos hash file data_pos).Headed ∧
      (self.set_file_pos hash file data_pos).active_hashes = self.active_hashes := by
  unfold ChainstateManager.set_file_pos
  split
  · next idx _ => exact hheaded.set_pos idx (fun _ => rfl) fun _ => rfl
  · exact ⟨hheaded, rfl⟩

theorem Headed.set_undo_pos (hheaded : self.Headed) (hash : BlockHash) (undo_pos : UInt32) :
    (self.set_undo_pos hash undo_pos).Headed ∧
      (self.set_undo_pos hash undo_pos).active_hashes = self.active_hashes := by
  unfold ChainstateManager.set_undo_pos
  split
  · next idx _ => exact hheaded.set_pos idx (fun _ => rfl) fun _ => rfl
  · exact ⟨hheaded, rfl⟩

theorem set_file_pos_coins_tip (self : ChainstateManager) (hash : BlockHash) (file : Int32) (data_pos : UInt32) :
    (self.set_file_pos hash file data_pos).coins_tip = self.coins_tip := by
  unfold ChainstateManager.set_file_pos
  split <;> rfl

theorem Headed.length_active_hashes (hheaded : self.Headed) :
    self.height = self.active_hashes.length - 1 ∧ 0 < self.active_hashes.length ∧
      self.active_hashes.length ≤ 2 ^ 31 := by
  obtain ⟨tip, hpath, _⟩ := hheaded.tip
  have hlength := hpath.2.1
  have hlt := hheaded.height_lt (getElem?_entry hpath.1)
  have hheight : (self.entry tip).height.toNat = height_of self.arena tip := rfl
  unfold height Chain.height active_hashes
  rw [List.length_map]
  omega

end ChainstateManager

open ChainstateManager

variable (env : Env)

theorem FromGenesis.headed {params : ChainParams} {base : CoinsViewDB} {start : ChainstateManager}
    (hstart : FromGenesis env params base start) :
    start.Headed ∧ start.active_hashes = [(params.create_genesis_block env.hash256).block_hash env.hash256] := by
  have hbest := FromGenesis.best_chain env hstart
  obtain ⟨tip, hpath, htip, _⟩ := hbest.active
  refine ⟨⟨hbest.toSound, tip, hpath, htip⟩, ?_⟩
  obtain ⟨coins_tip, _, rfl⟩ := load_genesis_block_new env hstart
  rfl

end qubitcoin.chainstate
