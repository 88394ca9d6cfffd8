import Qubitcoin.Chainstate.Indexed
import Qubitcoin.Lib.Trace
import Qubitcoin.Chainstate.BlockIndexDb

/-! The invariant of every manager that is reached from genesis: the index is a
    tree, the active chain is the path of its tip, and genesis is never marked as
    failed. -/

open qubitcoin primitives transaction block coins params check validation_state chain chainparams
  qubitcoin.validation parentTree

namespace qubitcoin.chainstate

namespace ChainstateManager

structure Sound (manager : ChainstateManager) : Prop extends Indexed manager where
  chain : ∃ tip, AncestorPath manager.arena tip manager.chain.chain
  best : ∀ {idx : Nat} {work : ArithUint256}, manager.best_valid_tip = some (idx, work) →
    idx < manager.arena.length ∧ work = (manager.entry idx).chain_work
  genesis : (manager.entry 0).is_valid BlockStatus.VALID_SCRIPTS = true
  flags : ∀ {idx : Nat} {index : BlockIndex}, manager.arena[idx]? = some index →
    index.status.bits &&& BlockStatus.FAILED_CHILD = 0

variable {self : ChainstateManager}

theorem tip_of_path {tip : Nat} (hpath : AncestorPath self.arena tip self.chain.chain) :
    self.chain.tip = some tip := hpath.2.getLast?

theorem Sound.with_coins (hsound : self.Sound) (coins_tip : CoinsViewCache) : { self with coins_tip }.Sound :=
  ⟨⟨hsound.tree, hsound.nonempty, hsound.by_hash, hsound.root, hsound.child, hsound.height_lt⟩, hsound.chain,
    hsound.best, hsound.genesis, hsound.flags⟩

theorem Sound.is_connected_genesis (hsound : self.Sound) : self.is_connected 0 = true := by
  obtain ⟨tip, hpath⟩ := hsound.chain
  have hheight : (self.entry 0).height = 0 := (hsound.tree.root (getElem?_entry hsound.nonempty)).2
  have hzero : self.chain.get_block_index 0 = some 0 := by
    unfold Chain.get_block_index
    rw [if_neg (by omega)]
    exact hsound.path_zero hpath
  unfold is_connected
  rw [hsound.genesis, hheight, hzero]
  rfl

theorem Updates.path {after : ChainstateManager} (hupdates : Updates self after) {tip : Nat} {path : List Nat}
    (hpath : AncestorPath self.arena tip path) : AncestorPath after.arena tip path := by
  unfold AncestorPath
  rw [hupdates.length, hupdates.parent_of, hupdates.height_of]
  exact hpath

theorem Updates.chain_work {after : ChainstateManager} (hupdates : Updates self after) (idx : Nat) :
    (after.entry idx).chain_work = (self.entry idx).chain_work := by
  have hwork := congrArg BlockIndex.chain_work (getD_fixed hupdates.fixed idx)
  exact hwork

theorem Sound.update_entry (hsound : self.Sound) {idx : Nat} {update : BlockIndex → BlockIndex}
    (hfixed : ∀ index, (update index).fixed = index.fixed)
    (hflag : ∀ index, (update index).status.bits &&& BlockStatus.FAILED_CHILD =
      index.status.bits &&& BlockStatus.FAILED_CHILD)
    (hgenesis : idx = 0 → ∀ index, index.is_valid BlockStatus.VALID_SCRIPTS = true →
      (update index).is_valid BlockStatus.VALID_SCRIPTS = true) :
    (self.update_entry idx update).Sound := by
  have hupdates : Updates self (self.update_entry idx update) := .update_entry self idx hfixed
  have hentry : ∀ {i index}, (self.update_entry idx update).arena[i]? = some index → ∃ old,
      self.arena[i]? = some old ∧ index = if idx = i then update old else old := by
    intro i index hat
    have hget := (getElem?_modify_eq self.arena idx i update).symm.trans hat
    obtain ⟨old, hold, rfl⟩ := Option.map_eq_some_iff.mp hget
    exact ⟨old, hold, rfl⟩
  refine ⟨hsound.toIndexed.of_updates hupdates, ?_, ?_, ?_, ?_⟩
  · obtain ⟨tip, hpath⟩ := hsound.chain
    exact ⟨tip, hupdates.path hpath⟩
  · intro best work hbest
    obtain ⟨hlt, hwork⟩ := hsound.best hbest
    rw [hupdates.length, hupdates.chain_work]
    exact ⟨hlt, hwork⟩
  · have hlt : 0 < (self.update_entry idx update).arena.length := by
      rw [hupdates.length]
      exact hsound.nonempty
    obtain ⟨old, hold, heq⟩ := hentry (getElem?_entry hlt)
    have hvalid : old.is_valid BlockStatus.VALID_SCRIPTS = true := by
      have := hsound.genesis
      rwa [entry_eq hold] at this
    rw [heq]
    split
    · next hidx => exact hgenesis hidx old hvalid
    · exact hvalid
  · intro i index hat
    obtain ⟨old, hold, rfl⟩ := hentry hat
    split
    · rw [hflag]
      exact hsound.flags hold
    · exact hsound.flags hold

theorem Sound.mark_failed (hsound : self.Sound) {idx : Nat} (hidx : idx ≠ 0) (e : Failure BlockValidationState) :
    (self.mark_failed idx e).Sound := by
  cases e with
  | invalid state =>
    refine hsound.update_entry (fun _ => rfl) (fun index => ?_) (fun hzero => absurd hzero hidx)
    exact BlockStatus.insert_and (by decide) index.status
  | panic why => exact hsound

theorem Sound.receive_data (hsound : self.Sound) (block : Block) (idx : Nat) :
    (self.receive_data block idx).Sound := by
  refine hsound.update_entry (fun _ => rfl) (fun index => ?_) (fun _ index hvalid => ?_)
  · exact (BlockStatus.raise_validity_and (by decide) (by decide) _).trans
      (BlockStatus.insert_and (by decide) index.status)
  · apply BlockStatus.is_valid_raise (by decide) (by decide)
    rw [BlockStatus.is_valid_have_data]
    exact hvalid

theorem Sound.mark_connected (hsound : self.Sound) {idx : Nat} (hlt : idx < self.arena.length) :
    (self.mark_connected idx).Sound := by
  have hentry : (self.update_entry idx fun index =>
      { index with status := index.status.raise_validity BlockStatus.VALID_SCRIPTS }).Sound := by
    refine hsound.update_entry (fun _ => rfl) (fun index => ?_) (fun _ index hvalid => ?_)
    · exact BlockStatus.raise_validity_and (by decide) (by decide) index.status
    · exact BlockStatus.is_valid_raise (by decide) (by decide) hvalid
  unfold ChainstateManager.mark_connected
  dsimp only
  split
  · refine ⟨⟨hentry.tree, hentry.nonempty, hentry.by_hash, hentry.root, hentry.child, hentry.height_lt⟩,
      hentry.chain, ?_, hentry.genesis, hentry.flags⟩
    intro best work hbest
    cases hbest
    exact ⟨by simpa [ChainstateManager.update_entry, arena, BlockMap.get_mut] using hlt, rfl⟩
  · exact hentry

variable (env : Env)

theorem Sound.connect_at (hsound : self.Sound) (block_reader : BlockReader) (h : Int) {idx : Nat} (hidx : idx ≠ 0)
    (hlt : idx < self.arena.length) : (self.connect_at env block_reader h idx).2.Sound := by
  unfold ChainstateManager.connect_at
  split
  · exact hsound
  · split
    · next e coins_tip _ => exact (hsound.with_coins coins_tip).mark_failed hidx e
    · next undo coins_tip _ =>
      split
      · exact hsound.with_coins coins_tip
      · exact (hsound.with_coins coins_tip).mark_connected hlt

theorem Sound.connect_loop (block_reader : BlockReader) (just_connected : Option Nat) (new_chain : List Nat)
    (heights : List Int) : ∀ {self : ChainstateManager}, self.Sound →
      (∀ h ∈ heights, ∀ idx, new_chain[h.toNat]? = some idx → idx ≠ 0 ∧ idx < self.arena.length) →
      (connect_loop env block_reader just_connected new_chain heights self).2.Sound ∧
        (connect_loop env block_reader just_connected new_chain heights self).2.chain = self.chain := by
  induction heights with
  | nil => exact fun hsound _ => ⟨hsound, rfl⟩
  | cons h rest ih =>
    intro self hsound hidx
    have hrest := fun other hmem => hidx other (List.mem_cons_of_mem _ hmem)
    unfold ChainstateManager.connect_loop
    split
    · exact ⟨hsound, rfl⟩
    · next idx hat =>
      obtain ⟨hne, hlt⟩ := hidx h (by simp) idx hat
      split
      · exact ih hsound hrest
      · have hafter := hsound.connect_at env block_reader h hne hlt
        have hchain := self.connect_at_chain env block_reader h idx
        have hlength := (self.connect_at_updates env block_reader h idx).length
        split
        · next e after heq =>
          rw [heq] at hafter hchain
          exact ⟨hafter, hchain⟩
        · next after heq =>
          rw [heq] at hafter hchain hlength
          have hloop := ih hafter fun other hmem i hi => by
            rw [hlength]
            exact hrest other hmem i hi
          exact ⟨hloop.1, hloop.2.trans hchain⟩

theorem Indexed.path_ne_zero (hindexed : self.Indexed) {tip : Nat} {path : List Nat}
    (hpath : AncestorPath self.arena tip path) {h : Nat} (hpos : 0 < h) {idx : Nat} (hat : path[h]? = some idx) :
    idx ≠ 0 ∧ idx < self.arena.length := by
  have hheight := hpath.2.height_getElem? hindexed.tree.leveled hat
  constructor
  · rintro rfl
    rw [hindexed.tree.height_zero] at hheight
    omega
  · have hle : h ≤ height_of self.arena tip := by
      have := (List.getElem?_eq_some_iff.mp hat).1
      have := hpath.2.1
      omega
    rw [hpath.2.2 h hle] at hat
    exact (hindexed.tree.ancestor_le hat).trans_lt hpath.1

theorem Indexed.mem_path_lt (hindexed : self.Indexed) {tip : Nat} {path : List Nat}
    (hpath : AncestorPath self.arena tip path) {idx : Nat} (hmem : idx ∈ path) : idx < self.arena.length := by
  obtain ⟨h, hat⟩ := List.mem_iff_getElem?.mp hmem
  by_cases hzero : h = 0
  · subst hzero
    rw [hindexed.path_zero hpath] at hat
    cases hat
    exact hindexed.nonempty
  · exact (hindexed.path_ne_zero hpath (by omega) hat).2

theorem Sound.reorganize (hsound : self.Sound) (block_reader : BlockReader) (just_connected : Option Nat)
    {best_idx : Nat} (hlt : best_idx < self.arena.length) :
    (self.reorganize env block_reader just_connected best_idx).2.Sound ∧
      ((self.reorganize env block_reader just_connected best_idx).1 = .ok () →
        AncestorPath self.arena best_idx (self.reorganize env block_reader just_connected best_idx).2.chain.chain) ∧
      ∀ e, (self.reorganize env block_reader just_connected best_idx).1 = .error e →
        (self.reorganize env block_reader just_connected best_idx).2.chain = self.chain := by
  obtain ⟨tip, hchain⟩ := hsound.chain
  have hpath := hsound.build_chain_path hlt
  obtain ⟨fork, hfork, _, _, _⟩ := hsound.find_fork_height hchain hpath
  unfold ChainstateManager.reorganize
  dsimp only
  rw [hfork]
  split
  · exact ⟨hsound, nofun, fun _ _ => rfl⟩
  · next coins_tip _ =>
    have hheights : ∀ h ∈ heights_up fork (self.entry best_idx).height, ∀ idx,
        (self.build_chain_path best_idx)[h.toNat]? = some idx → idx ≠ 0 ∧ idx < self.arena.length := by
      intro h hmem idx hat
      have hpos := (mem_heights_up.mp hmem).1
      exact hsound.path_ne_zero hpath (by omega) hat
    obtain ⟨hloop, hsame⟩ := Sound.connect_loop env block_reader just_connected (self.build_chain_path best_idx)
      (heights_up fork (self.entry best_idx).height) (hsound.with_coins coins_tip) hheights
    have hupdates := connect_loop_updates env block_reader just_connected (self.build_chain_path best_idx)
      (heights_up fork (self.entry best_idx).height) { self with coins_tip }
    split
    · next e after heq =>
      rw [heq] at hloop hsame
      exact ⟨hloop, nofun, fun _ _ => hsame⟩
    · next after heq =>
      rw [heq] at hloop hsame hupdates
      have hlength : after.arena.length = self.arena.length := hupdates.length
      have hheight : (self.entry best_idx).height = height_of after.arena best_idx := by
        rw [hupdates.height_of]
        exact hsound.tree.height_eq (getElem?_entry hlt)
      obtain ⟨after_tip, hafter⟩ := hloop.chain
      have hnew : AncestorPath after.arena best_idx
          (after.chain.set_tip_with best_idx (self.entry best_idx).height after.get_prev).chain := by
        rw [hheight]
        exact hloop.tree.set_tip_with_path (by rw [hlength]; exact hlt)
          (hloop.tree.settled_resize hafter _)
      refine ⟨⟨⟨hloop.tree, hloop.nonempty, hloop.by_hash, hloop.root, hloop.child, hloop.height_lt⟩,
        ⟨best_idx, hnew⟩, hloop.best, hloop.genesis, hloop.flags⟩, fun _ => ?_, nofun⟩
      have hback := hnew
      unfold AncestorPath at hback ⊢
      rw [hupdates.length, hupdates.parent_of, hupdates.height_of] at hback
      exact hback

theorem Sound.activate_best_chain (hsound : self.Sound) (block_reader : BlockReader) (just_connected : Option Nat) :
    (self.activate_best_chain env block_reader just_connected).2.Sound := by
  unfold ChainstateManager.activate_best_chain
  split
  · exact hsound
  · next best_idx work hbest =>
    split
    · exact hsound
    · exact (hsound.reorganize env block_reader just_connected (hsound.best hbest).1).1

theorem Indexed.entry_add_header (hindexed : self.Indexed) (header : BlockHeader) {prev_idx idx : Nat}
    (hprev : prev_idx < self.arena.length) (hlt : idx < self.arena.length) :
    (self.add_header env header prev_idx).entry idx = self.entry idx := by
  obtain ⟨skip, harena, _⟩ := hindexed.add_header_arena env header hprev
  apply entry_eq
  rw [harena, List.getElem?_append_left hlt, getElem?_entry hlt]

theorem Indexed.path_add_header (hindexed : self.Indexed) (header : BlockHeader) {prev_idx tip : Nat}
    (hprev : prev_idx < self.arena.length) {path : List Nat} (hpath : AncestorPath self.arena tip path) :
    AncestorPath (self.add_header env header prev_idx).arena tip path := by
  obtain ⟨skip, harena, _⟩ := hindexed.add_header_arena env header hprev
  obtain ⟨hlt, hpath⟩ := hpath
  refine ⟨?_, ?_⟩
  · rw [harena, List.length_append]
    omega
  · rw [harena]
    refine ⟨hpath.1.trans (by rw [height_of_append _ hlt]), fun h hle => ?_⟩
    rw [height_of_append _ hlt] at hle ⊢
    rw [hindexed.tree.ancestor_append _ hlt]
    exact hpath.2 h hle

theorem Sound.accept_block_header (hsound : self.Sound) (header : BlockHeader) (now : Int) :
    (self.accept_block_header env header now).2.Sound := by
  cases haccept : self.accept_block_header env header now with
  | mk result after =>
    cases result with
    | error e =>
      obtain rfl := accept_block_header_error env haccept
      exact hsound
    | ok idx =>
      obtain ⟨_, rfl⟩ | ⟨prev_idx, hnew, hcheck, rfl, rfl⟩ := accept_block_header_ok env haccept
      · exact hsound
      · have hindexed := hsound.toIndexed.add_header env hnew hcheck
        obtain ⟨hfound, _⟩ := check_new_header_ok env hcheck
        obtain ⟨skip, harena, _⟩ := hsound.add_header_arena env header (hsound.find_lt hfound)
        have hentry : ∀ {idx : Nat}, idx < self.arena.length →
            (self.add_header env header prev_idx).entry idx = self.entry idx :=
          fun hlt => hsound.entry_add_header env header (hsound.find_lt hfound) hlt
        refine ⟨hindexed, ?_, ?_, ?_, ?_⟩
        · obtain ⟨tip, hpath⟩ := hsound.chain
          exact ⟨tip, hsound.path_add_header env header (hsound.find_lt hfound) hpath⟩
        · intro best work hbest
          obtain ⟨hlt, hwork⟩ := hsound.best hbest
          refine ⟨?_, by rw [hentry hlt, hwork]⟩
          rw [harena, List.length_append]
          omega
        · rw [hentry hsound.nonempty]
          exact hsound.genesis
        · intro idx index hat
          rw [harena] at hat
          obtain hat | ⟨_, rfl⟩ := getElem?_concat_cases hat
          · exact hsound.flags hat
          · have hnew : (BlockStatus.default.raise_validity BlockStatus.VALID_TREE).bits &&&
                BlockStatus.FAILED_CHILD = 0 := by decide
            exact hnew

theorem Sound.process_new_block (hsound : self.Sound) (block : Block) (now : Int) (block_reader : BlockReader) :
    (self.process_new_block env block now block_reader).2.Sound := by
  have hstart := hsound.accept_block_header env block.header now
  have hfound := (hsound.toIndexed.accept_block_header env block.header now).2
  have hbody : ∀ {idx mid}, self.accept_block_header env block.header now = (.ok idx, mid) →
      mid.is_connected idx = false → mid.Sound ∧ idx ≠ 0 ∧ idx < mid.arena.length := by
    intro idx mid hheader hknown
    rw [hheader] at hstart hfound
    refine ⟨hstart, ?_, hstart.find_lt (hfound idx rfl)⟩
    rintro rfl
    rw [hstart.is_connected_genesis] at hknown
    cases hknown
  have hprocessed := self.process_new_block_processed env block now block_reader
  generalize (self.process_new_block env block now block_reader).1 = result at hprocessed
  generalize (self.process_new_block env block now block_reader).2 = after at hprocessed
  cases hprocessed with
  | header _ => exact hsound
  | known hheader _ =>
    rw [hheader] at hstart
    exact hstart
  | body hheader hknown _ =>
    obtain ⟨hmid, hne, _⟩ := hbody hheader hknown
    exact hmid.mark_failed hne _
  | context hheader hknown _ _ =>
    obtain ⟨hmid, hne, _⟩ := hbody hheader hknown
    exact (hmid.receive_data block _).mark_failed hne _
  | connect hheader hknown _ _ _ =>
    obtain ⟨hmid, hne, _⟩ := hbody hheader hknown
    exact ((hmid.receive_data block _).with_coins _).mark_failed hne _
  | @activate idx mid after undo coins_tip result hheader hknown _ _ _ hactivate =>
    obtain ⟨hmid, _, hlt⟩ := hbody hheader hknown
    have hlt : idx < (mid.receive_data block idx).arena.length := by
      rw [(receive_data_updates mid block idx).length]
      exact hlt
    have hconnected := ((hmid.receive_data block idx).with_coins coins_tip).mark_connected hlt
    have hafter := hconnected.activate_best_chain env block_reader (some idx)
    have hactivate := congrArg Prod.snd hactivate
    unfold connected at hactivate
    rwa [hactivate] at hafter

end ChainstateManager

end qubitcoin.chainstate

/-! The manager that has loaded its genesis block, and the managers reached from
    it. -/

open transition

namespace qubitcoin.chainstate

open ChainstateManager

variable (env : Env)

theorem load_genesis_block_new {params : ChainParams} {base : CoinsViewDB} {genesis : Block}
    {start : ChainstateManager}
    (hload : (ChainstateManager.new params base).load_genesis_block env genesis = .ok start) :
    ∃ coins_tip, add_genesis_coins (.new base) genesis = .ok coins_tip ∧ start =
      { params
        block_index := ⟨[genesis_index env genesis], AList.insert (genesis.block_hash env.hash256) 0 ∅⟩
        chain := ⟨[0]⟩
        coins_tip := coins_tip.set_best_block (genesis.block_hash env.hash256)
        assume_valid := none
        best_valid_tip := some (0, (genesis_index env genesis).chain_work)
        dirty_indices := {0} } := by
  unfold load_genesis_block at hload
  dsimp only at hload
  split at hload
  · cases hload
  · split at hload
    · next hfound => simp [ChainstateManager.new, BlockMap.new, BlockMap.find_by_hash] at hfound
    · split at hload
      · cases hload
      · next coins_tip hcoins =>
        refine ⟨coins_tip, hcoins, ?_⟩
        cases hload
        rfl

theorem genesis_index_status (genesis : Block) :
    (genesis_index env genesis).status =
      (BlockStatus.default.raise_validity BlockStatus.VALID_SCRIPTS).insert BlockStatus.HAVE_DATA := rfl

theorem Sound.load_genesis_block {params : ChainParams} {base : CoinsViewDB} {genesis : Block}
    {start : ChainstateManager} (hprev : genesis.header.prev_blockhash = 0)
    (hload : (ChainstateManager.new params base).load_genesis_block env genesis = .ok start) : start.Sound := by
  obtain ⟨coins_tip, _, rfl⟩ := load_genesis_block_new env hload
  have hat : ∀ {idx : Nat} {index : BlockIndex}, [genesis_index env genesis][idx]? = some index →
      idx = 0 ∧ index = genesis_index env genesis := by
    intro idx index hat
    rw [List.getElem?_singleton] at hat
    split at hat
    · next hidx =>
      cases hat
      exact ⟨hidx, rfl⟩
    · cases hat
  refine ⟨⟨⟨?_, ?_, ?_⟩, by simp [arena], ?_, ?_, ?_, ?_⟩, ⟨0, by simp [arena], rfl, ?_⟩, ?_, ?_, ?_⟩
  · intro index hindex
    obtain ⟨_, rfl⟩ := hat hindex
    exact ⟨rfl, rfl⟩
  · intro idx index hindex hne
    exact absurd (hat hindex).1 hne
  · intro idx index skip_idx hindex hskip
    obtain ⟨_, rfl⟩ := hat hindex
    cases hskip
  · intro hash idx
    unfold BlockMap.find_by_hash
    rw [lookup_insert_hash]
    constructor
    · intro hlookup
      split at hlookup
      · next heq =>
        cases hlookup
        exact ⟨_, rfl, heq.symm⟩
      · simp at hlookup
    · rintro ⟨index, hindex, rfl⟩
      obtain ⟨rfl, rfl⟩ := hat hindex
      exact if_pos rfl
  · intro index hindex
    obtain ⟨_, rfl⟩ := hat hindex
    exact ⟨hprev, rfl⟩
  · intro idx prev_idx index prev hindex hlink _
    obtain ⟨_, rfl⟩ := hat hindex
    cases hlink
  · intro idx index hindex
    obtain ⟨_, rfl⟩ := hat hindex
    have hzero : (0 : Int) < 2 ^ 31 := by norm_num
    exact hzero
  · intro h hle
    obtain rfl : h = 0 := Nat.le_zero.mp hle
    rfl
  · intro idx work hbest
    cases hbest
    exact ⟨by simp [arena], rfl⟩
  · have hvalid : (genesis_index env genesis).status.is_valid BlockStatus.VALID_SCRIPTS = true := by
      rw [genesis_index_status]
      decide
    exact hvalid
  · intro idx index hindex
    obtain ⟨_, rfl⟩ := hat hindex
    rw [genesis_index_status]
    decide

theorem create_genesis_block_prev (params : ChainParams) (hash256 : List UInt8 → Uint256) :
    (params.create_genesis_block hash256).header.prev_blockhash = 0 := rfl

/-- The start of a run: a new manager that has loaded the genesis block of its
    network. -/
def FromGenesis (params : ChainParams) (base : CoinsViewDB) (start : ChainstateManager) : Prop :=
  (ChainstateManager.new params base).load_genesis_block env (params.create_genesis_block env.hash256) = .ok start

theorem FromGenesis.sound {params : ChainParams} {base : CoinsViewDB} {start : ChainstateManager}
    (hstart : FromGenesis env params base start) : start.Sound :=
  Sound.load_genesis_block env (create_genesis_block_prev params env.hash256) hstart

/-- What the node does with its manager: it processes blocks and headers, records
    where it has written a block and its undo data, and sets the assumed-valid block.
    The system time and the reader are those of the call. -/
inductive Event where
  | block (block : Block) (now : Int) (block_reader : BlockReader)
  | header (header : BlockHeader) (now : Int)
  | file_pos (hash : BlockHash) (file : Int32) (data_pos : UInt32)
  | undo_pos (hash : BlockHash) (undo_pos : UInt32)
  | assume_valid (hash : BlockHash)

/-- The manager after an event, whether the call returns an error or not. -/
def ChainstateManager.apply (self : ChainstateManager) : Event → ChainstateManager
  | .block block now block_reader => (self.process_new_block env block now block_reader).2
  | .header header now => (self.accept_block_header env header now).2
  | .file_pos hash file data_pos => self.set_file_pos hash file data_pos
  | .undo_pos hash undo_pos => self.set_undo_pos hash undo_pos
  | .assume_valid hash => { self with assume_valid := some hash }

/-- The managers at the ends of runs. -/
def Run : ChainstateManager → List Event → ChainstateManager → Prop :=
  Trace fun self event after => after = self.apply env event

variable {self : ChainstateManager}

theorem Sound.set_pos (hsound : self.Sound) (idx : Nat) {update : BlockIndex → BlockIndex}
    (hfixed : ∀ index, (update index).fixed = index.fixed) (hstatus : ∀ index, (update index).status = index.status) :
    (self.update_entry idx update).Sound := by
  refine hsound.update_entry hfixed (fun index => by rw [hstatus]) fun _ index hvalid => ?_
  unfold BlockIndex.is_valid
  rw [hstatus]
  exact hvalid

theorem Sound.apply (hsound : self.Sound) (event : Event) : (self.apply env event).Sound := by
  cases event with
  | block block now block_reader => exact hsound.process_new_block env block now block_reader
  | header header now => exact hsound.accept_block_header env header now
  | file_pos hash file data_pos =>
    unfold ChainstateManager.apply set_file_pos
    dsimp only
    split
    · next idx _ => exact Sound.set_pos hsound idx (fun _ => rfl) fun _ => rfl
    · exact hsound
  | undo_pos hash undo_pos =>
    unfold ChainstateManager.apply set_undo_pos
    dsimp only
    split
    · next idx _ => exact Sound.set_pos hsound idx (fun _ => rfl) fun _ => rfl
    · exact hsound
  | assume_valid hash =>
    exact ⟨⟨hsound.tree, hsound.nonempty, hsound.by_hash, hsound.root, hsound.child, hsound.height_lt⟩, hsound.chain,
      hsound.best, hsound.genesis, hsound.flags⟩

theorem Run.sound {after : ChainstateManager} {events : List Event} (hrun : Run env self events after)
    (hsound : self.Sound) : after.Sound := by
  refine Trace.invariant Sound ?_ hrun hsound
  rintro self event _ hinv rfl
  exact Sound.apply env hinv event

end qubitcoin.chainstate

/-! `qubitcoin-node/chainstate.rs`: `load_block_index`, which rebuilds the block tree
    from its records, and the list of entries to write. -/

open qubitcoin.block_index_db

namespace qubitcoin.chainstate

/-- The entry of a record, without its links. -/
def to_index (record : BlockIndexRecord) : BlockIndex :=
  { BlockIndex.new with
    block_hash := record.block_hash
    version := record.version
    prev_blockhash := record.prev_blockhash
    merkle_root := record.merkle_root
    time := record.time
    bits := record.bits
    nonce := record.nonce
    height := record.height
    status := ⟨record.status_bits⟩
    file := record.file
    data_pos := record.data_pos
    undo_pos := record.undo_pos
    tx_count := record.tx_count
    chain_tx_count := record.chain_tx_count
    chain_work := record.chain_work }

/-- Link an entry to its parent, with `time_max` and the skip pointer. -/
def BlockMap.resolve (self : BlockMap) (arena_idx : Nat) : BlockMap :=
  let prev_hash := (self.get arena_idx).prev_blockhash
  let linked :=
    if !prev_hash.is_null then
      match self.find_by_hash prev_hash with
      | some prev_idx =>
        let self := self.get_mut arena_idx fun index => { index with prev := some prev_idx }
        let parent_time_max := (self.get prev_idx).time_max
        let this_time := (self.get arena_idx).time
        self.get_mut arena_idx fun index => { index with time_max := max parent_time_max this_time }
      | none => self
    else
      let time := (self.get arena_idx).time
      self.get_mut arena_idx fun index => { index with time_max := time }
  linked.build_skip_pointer arena_idx

/-- The first fully valid entry of the most work, and its work. -/
def BlockMap.find_best (self : BlockMap) : Option Nat × ArithUint256 :=
  (List.range self.indices.length).foldl
    (fun best i =>
      let entry := self.get i
      if entry.is_valid BlockStatus.VALID_SCRIPTS ∧ best.2 < entry.chain_work then (some i, entry.chain_work)
      else best)
    (none, 0)

/-- The order of the records, in which records of one height keep their places. -/
def by_height (left right : BlockIndexRecord) : Bool := decide (left.height ≤ right.height)

def BlockMap.load (self : BlockMap) (records : List BlockIndexRecord) : BlockMap :=
  let sorted := records.mergeSort by_height
  let inserted := sorted.foldl (fun map record => map.insert (to_index record)) self
  (List.range inserted.indices.length).foldl BlockMap.resolve inserted

namespace ChainstateManager

/-- Rebuild the block index from its records and start the active chain at its
    best entry. -/
def load_block_index (self : ChainstateManager) (records : List BlockIndexRecord) : ChainstateManager :=
  if records = [] then self
  else
    let block_index := self.block_index.load records
    match block_index.find_best with
    | (none, _) => { self with block_index }
    | (some best, best_work) =>
      let self := { self with block_index, best_valid_tip := some (best, best_work) }
      { self with chain := self.chain.set_tip_with best (self.entry best).height self.get_prev }

/-- The entries modified since the last flush, as the dirty set lists them. Only
    indices of the arena are ever dirty. -/
def dirty_block_indices (self : ChainstateManager) (listed : List Nat) : List BlockIndex :=
  listed.filterMap fun idx => self.block_index.indices[idx]?

def clear_dirty (self : ChainstateManager) : ChainstateManager := { self with dirty_indices := ∅ }

end ChainstateManager

/-- An entry without its links. -/
def unlinked (index : BlockIndex) : BlockIndex := { index with prev := none, skip := none, time_max := 0 }

theorem to_index_to_record (index : BlockIndex) : to_index (to_record index) = unlinked index := by
  unfold to_index unlinked
  rw [chain_work_to_record]
  rfl

def BlockMap.Finds (self : BlockMap) (entries : List BlockIndex) : Prop :=
  ∀ hash idx, self.find_by_hash hash = some idx ↔ ∃ index, entries[idx]? = some index ∧ index.block_hash = hash

theorem BlockMap.Finds.insert {self : BlockMap} (hfinds : self.Finds self.indices) {index : BlockIndex}
    (hnew : index.block_hash ∉ self.indices.map BlockIndex.block_hash) :
    (self.insert index).Finds (self.indices ++ [index]) := by
  have hnot : ∀ {idx : Nat} {other : BlockIndex}, self.indices[idx]? = some other →
      other.block_hash ≠ index.block_hash := fun hat heq =>
    hnew (List.mem_map.mpr ⟨_, List.mem_of_getElem? hat, heq⟩)
  intro hash idx
  have hlookup : (self.insert index).find_by_hash hash =
      if hash = index.block_hash then some self.indices.length else self.find_by_hash hash :=
    lookup_insert_hash _ _ _ _
  rw [hlookup]
  constructor
  · intro hfound
    split at hfound
    · next heq =>
      cases hfound
      exact ⟨index, by simp, heq.symm⟩
    · obtain ⟨other, hat, hhash⟩ := (hfinds hash idx).mp hfound
      exact ⟨other, by rw [List.getElem?_append_left (List.getElem?_eq_some_iff.mp hat).1, hat], hhash⟩
  · rintro ⟨other, hat, rfl⟩
    by_cases hlt : idx < self.indices.length
    · rw [List.getElem?_append_left hlt] at hat
      rw [if_neg (hnot hat)]
      exact (hfinds _ idx).mpr ⟨other, hat, rfl⟩
    · rw [List.getElem?_append_right (by omega), List.getElem?_singleton] at hat
      split at hat
      · next hzero =>
        cases hat
        rw [if_pos rfl]
        congr 1
        omega
      · cases hat

theorem BlockMap.insert_all_spec {entries : List BlockIndex} :
    ∀ {self : BlockMap}, self.Finds self.indices → ((self.indices ++ entries).map BlockIndex.block_hash).Nodup →
      (entries.foldl BlockMap.insert self).indices = self.indices ++ entries ∧
      (entries.foldl BlockMap.insert self).Finds (self.indices ++ entries) := by
  induction entries with
  | nil =>
    intro self hfinds _
    rw [List.append_nil]
    exact ⟨rfl, hfinds⟩
  | cons index rest ih =>
    intro self hfinds hnodup
    have hsplit : self.indices ++ index :: rest = (self.indices ++ [index]) ++ rest := by simp
    have hnew : index.block_hash ∉ self.indices.map BlockIndex.block_hash := by
      rw [List.map_append, List.nodup_append] at hnodup
      exact fun hmem => hnodup.2.2 _ hmem _ (by simp) rfl
    rw [hsplit] at hnodup ⊢
    exact ih (hfinds.insert hnew) hnodup

end qubitcoin.chainstate
