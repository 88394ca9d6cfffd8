import Qubitcoin.Daemon.Steps

/-! The secondary indexers against the active chain. -/

open qubitcoin primitives transaction block coins chain validation_state chainstate
  qubitcoin.validation chainparams indexer transition

namespace qubitcoin.qubitcoind

variable (env : Env)

def block_hash_of (data : List UInt8) : Option BlockHash :=
  match (Block.decode env.hash256).run data with
  | .ok (block, _) => some (block.block_hash env.hash256)
  | .error _ => none

/-- The heights and blocks whose effects are in an indexer, in the order of its runs. -/
def effects (inst : IndexerInstance) : List (Nat × Option BlockHash) :=
  inst.processed.map fun run => (run.1.toNat, block_hash_of env run.2)

/-- The blocks of a chain from a height on. -/
def blocks_from (hashes : List BlockHash) (start : Nat) : List (Nat × Option BlockHash) :=
  (hashes.zipIdx.filter fun block => decide (start ≤ block.2)).map fun block => (block.2, some block.1)

theorem blocks_from_concat (hashes : List BlockHash) (hash : BlockHash) (start : Nat) :
    blocks_from (hashes ++ [hash]) start =
      blocks_from hashes start ++ if start ≤ hashes.length then [(hashes.length, some hash)] else [] := by
  unfold blocks_from
  rw [List.zipIdx_append, List.filter_append, List.map_append, Nat.zero_add, List.zipIdx_singleton]
  congr 1
  by_cases hle : start ≤ hashes.length <;> simp [hle]

theorem blocks_from_cons_zero (hash : BlockHash) (rest : List BlockHash) :
    blocks_from (hash :: rest) 0 = (0, some hash) :: blocks_from (hash :: rest) 1 := by
  have hlate : ∀ block ∈ rest.zipIdx 1, 1 ≤ block.2 := fun block hmem => List.le_snd_of_mem_zipIdx hmem
  unfold blocks_from
  rw [List.zipIdx_cons, List.filter_cons_of_pos (by simp), List.filter_cons_of_neg (by simp), List.map_cons,
    List.filter_eq_self.mpr (by simp), List.filter_eq_self.mpr fun block hmem => decide_eq_true (hlate block hmem)]

/-- An indexer of the node, in synchronous mode and not paused, that depends on no other
    one. -/
structure Watched (node : LiveNodeInterface) (i : Nat) (inst : IndexerInstance) : Prop where
  mode : ∃ manager, node.indexer_manager = some manager ∧ manager.mode = .Synchronous ∧
    manager.indexers[i]? = some inst
  paused : inst.paused = false
  depends_on : inst.depends_on = []

/-- The runs of an indexer succeed in a call. -/
def Succeeds (world : World) (label : String) : Prop :=
  ∀ inst height block_data, inst.label = label → world.runtime inst height block_data = true

/-- A call in which the runs of an indexer succeed and the undo data is written. Its block is
    not the active tip, and if it is connected and has more work than the tip it is a child
    of the tip. -/
def FollowStep (label : String) (node : LiveNodeInterface) (call : List UInt8 × World) (next : LiveNodeInterface) : Prop :=
  next = (node.process_block env call.1 call.2).2 ∧ Succeeds call.2 label ∧ call.2.undo_pos.isSome = true ∧
    ∀ block rest pos, (Block.decode env.hash256).run call.1 = .ok (block, rest) → call.2.block_pos = some pos →
      node.chainstate.active_hashes.getLast? ≠ some (block.block_hash env.hash256) ∧
        (node.received env block pos).chainstate.Climbs env block call.2.now

/-- The invariant of such runs: the indexer was run on its first block, and then on the
    blocks of the chain from its start height on, genesis apart. -/
structure Following (genesis : BlockHash) (label : String) (start : UInt32) (i : Nat) (node : LiveNodeInterface) :
    Prop where
  headed : node.chainstate.Headed
  genesis : ∃ rest, node.chainstate.active_hashes = genesis :: rest
  indexer : ∃ inst, Watched node i inst ∧ inst.label = label ∧ inst.start_height = start ∧
    effects env inst = (0, block_hash_of env genesis_bytes) ::
      blocks_from node.chainstate.active_hashes (max 1 start.toNat)

variable {env}

theorem Watched.on_accepted {node : LiveNodeInterface} {i : Nat} {inst : IndexerInstance} (hwatched : Watched node i inst)
    {world : World} (hsucceeds : Succeeds world inst.label) (block : Block) {data : List UInt8} (pos : DiskBlockPos)
    (hdata : data ≠ []) :
    Watched (node.on_accepted block data pos world) i (inst.after (as_u32 node.chainstate.height) data) := by
  obtain ⟨manager, hmanager, hmode, hat⟩ := hwatched.mode
  obtain ⟨_, _, _, _, _, hindexers⟩ := node.on_accepted_frame block data pos world
  rw [hmanager, Option.map_some] at hindexers
  have hsteady : inst.Steady world.runtime := ⟨hwatched.paused, hwatched.depends_on, hsucceeds⟩
  obtain ⟨hat_after, hmode_after⟩ := IndexerManager.on_block_connected_steady hmode hat hsteady
    (as_u32 node.chainstate.height) hdata
  have hafter := hsteady.after (as_u32 node.chainstate.height) data
  exact ⟨⟨_, hindexers, hmode_after, hat_after⟩, hafter.paused, hafter.depends_on⟩

@[simp] theorem after_label (inst : IndexerInstance) (height : UInt32) (data : Bytes) :
    (inst.after height data).label = inst.label := by
  unfold IndexerInstance.after
  split <;> rfl

theorem effects_after (inst : IndexerInstance) (height : UInt32) (data : Bytes) :
    effects env (inst.after height data) = effects env inst ++
      if inst.start_height.toNat ≤ height.toNat then [(height.toNat, block_hash_of env data)] else [] := by
  unfold IndexerInstance.after effects
  by_cases hearly : height < inst.start_height
  · have : height.toNat < inst.start_height.toNat := UInt32.lt_iff_toNat_lt.mp hearly
    rw [if_pos hearly, if_neg (by omega), List.append_nil]
  · have : ¬ height.toNat < inst.start_height.toNat := fun hlt => hearly (UInt32.lt_iff_toNat_lt.mpr hlt)
    rw [if_neg hearly, if_pos (by omega), List.map_append, List.map_singleton]

theorem Following.step {genesis : BlockHash} {label : String} {start : UInt32} {i : Nat} {node next : LiveNodeInterface}
    {call : List UInt8 × World} (hfollowing : Following env genesis label start i node)
    (hstep : FollowStep env label node call next) : Following env genesis label start i next := by
  obtain ⟨data, world⟩ := call
  obtain ⟨rfl, hsucceeds, hundo, hblock⟩ := hstep
  rcases node.process_block_cases env data world with hsame | ⟨block, rest, pos, hread, hpos, hhandled⟩
  · rw [hsame]
    exact hfollowing
  obtain ⟨hnew_tip, hclimbs⟩ := hblock block rest pos hread hpos
  obtain ⟨hheaded, hdelivered⟩ := hhandled.delivered env hfollowing.headed hclimbs hundo
  obtain ⟨inst, hwatched, hlabel, hstart, heffects⟩ := hfollowing.indexer
  generalize (node.process_block env data world).2 = after at hheaded hdelivered
  cases hdelivered with
  | quiet hcarried _ hhashes =>
    obtain ⟨manager, hmanager, hmode, hat⟩ := hwatched.mode
    refine ⟨hheaded, hhashes ▸ hfollowing.genesis, inst, ⟨⟨manager, ?_, hmode, hat⟩, hwatched.paused,
      hwatched.depends_on⟩, hlabel, hstart, hhashes ▸ heffects⟩
    rw [hcarried.indexer_manager]
    exact hmanager
  | @accepted mid hcarried _ hmid hhashes =>
    obtain ⟨_, htip⟩ | ⟨hhashes, _⟩ := hhashes
    · exact absurd htip hnew_tip
    have hwatched_mid : Watched mid i inst := by
      obtain ⟨manager, hmanager, hmode, hat⟩ := hwatched.mode
      exact ⟨⟨manager, hcarried.indexer_manager.trans hmanager, hmode, hat⟩, hwatched.paused, hwatched.depends_on⟩
    obtain ⟨hindex, hchain, _⟩ := mid.on_accepted_frame block data pos world
    have hafter_hashes := ChainstateManager.active_hashes_congr hindex hchain
    rw [hhashes] at hafter_hashes
    obtain ⟨hheight, _, hsmall⟩ := hmid.length_active_hashes
    rw [hhashes, List.length_append, List.length_singleton] at hheight hsmall
    have hheight_nat : (as_u32 mid.chainstate.height).toNat = node.chainstate.active_hashes.length := by
      rw [hheight, toNat_as_u32 (by omega) (by omega)]
      omega
    obtain ⟨others, hgenesis⟩ := hfollowing.genesis
    refine ⟨hheaded, ⟨others ++ [block.block_hash env.hash256], ?_⟩, _,
      hwatched_mid.on_accepted (hlabel ▸ hsucceeds) block pos (LiveNodeInterface.ne_nil_of_decode env hread),
      (after_label ..).trans hlabel, (IndexerInstance.after_start_height ..).trans hstart, ?_⟩
    · rw [hafter_hashes, hgenesis, List.cons_append]
    · have hpositive : 1 ≤ node.chainstate.active_hashes.length := by
        rw [hgenesis, List.length_cons]
        omega
      have hhash : block_hash_of env data = some (block.block_hash env.hash256) := by
        unfold block_hash_of
        rw [hread]
      rw [effects_after, heffects, hafter_hashes, blocks_from_concat, hheight_nat, hhash, hstart, List.cons_append]
      have hiff : max 1 start.toNat ≤ node.chainstate.active_hashes.length ↔
          start.toNat ≤ node.chainstate.active_hashes.length := by omega
      simp only [hiff]

theorem startup_following {settings : Settings} {world : World} {node : LiveNodeInterface} {manager : IndexerManager}
    {runtime : Runtime} {label : String} {start : UInt32} {i : Nat}
    (hstart : startup env settings .empty world = .ok node) (hmanager : settings.indexer_manager = some manager)
    (hmode : manager.mode = .Synchronous)
    (hat : manager.indexers[i]? = some (IndexerInstance.new runtime label start [] .Synchronous))
    (hruns : ∀ inst height block_data, inst.label = label → runtime inst height block_data = true) :
    Following env ((settings.params.create_genesis_block env.hash256).block_hash env.hash256) label start i node := by
  obtain hfresh := startup_empty env hstart
  have hnew : IndexerInstance.new runtime label start [] .Synchronous =
      ⟨label, 0, start, [], false, none, [(0, genesis_bytes)]⟩ := by
    unfold IndexerInstance.new
    dsimp only
    rw [if_pos (hruns _ _ _ rfl)]
    rfl
  refine ⟨hfresh.headed, ⟨[], hfresh.active_hashes⟩, _, ⟨⟨manager, hfresh.indexer_manager.trans hmanager, hmode, hat⟩, ?_, ?_⟩,
    ?_, ?_, ?_⟩
  · rw [hnew]
  · rw [hnew]
  · rw [hnew]
  · rw [hnew]
  · rw [hnew, hfresh.active_hashes]
    simp [effects, blocks_from]

/-- The effects of the indexer are those of the chain from its start on exactly if its first
    block is the genesis block of the chain and its start is there. -/
theorem effects_eq_iff {genesis : BlockHash} {rest : List BlockHash} {first : Option BlockHash} {start : UInt32} :
    (0, first) :: blocks_from (genesis :: rest) (max 1 start.toNat) = blocks_from (genesis :: rest) start.toNat ↔
      start = 0 ∧ first = some genesis := by
  by_cases hzero : start = 0
  · subst hzero
    rw [show (0 : UInt32).toNat = 0 from rfl, Nat.max_eq_left (by omega), blocks_from_cons_zero]
    simp
  · have hpositive : 1 ≤ start.toNat := by
      have : start.toNat ≠ 0 := fun heq => hzero (UInt32.toNat_inj.mp heq)
      omega
    rw [Nat.max_eq_right hpositive]
    constructor
    · intro heq
      have hlength := congrArg List.length heq
      rw [List.length_cons] at hlength
      omega
    · rintro ⟨heq, _⟩
      exact absurd heq hzero

/-- In every run of such calls from a new data directory, the effects of the indexer are
    exactly the blocks of the active chain from its start height on, each once and in height
    order, if and only if it starts at the genesis block of the chain. -/
theorem indexer_follows_chain_iff {settings : Settings} {world : World} {node after : LiveNodeInterface}
    {manager : IndexerManager} {runtime : Runtime} {label : String} {start : UInt32} {i : Nat}
    {calls : List (List UInt8 × World)} (hstart : startup env settings .empty world = .ok node)
    (hmanager : settings.indexer_manager = some manager) (hmode : manager.mode = .Synchronous)
    (hat : manager.indexers[i]? = some (IndexerInstance.new runtime label start [] .Synchronous))
    (hruns : ∀ inst height block_data, inst.label = label → runtime inst height block_data = true)
    (hrun : Trace (FollowStep env label) node calls after) :
    ∃ inst, Watched after i inst ∧
      (effects env inst = blocks_from after.chainstate.active_hashes start.toNat ↔
        start = 0 ∧ block_hash_of env genesis_bytes =
          some ((settings.params.create_genesis_block env.hash256).block_hash env.hash256)) := by
  have hfollowing := hrun.invariant _ (fun hinv hstep => Following.step hinv hstep)
    (startup_following hstart hmanager hmode hat hruns)
  obtain ⟨inst, hwatched, _, _, heffects⟩ := hfollowing.indexer
  obtain ⟨rest, hgenesis⟩ := hfollowing.genesis
  refine ⟨inst, hwatched, ?_⟩
  rw [heffects, hgenesis]
  exact effects_eq_iff

/-- The indexer `alkanes`, from genesis on. -/
def regtest_indexer : IndexerManager :=
  ⟨[IndexerInstance.new (fun _ _ _ => true) "alkanes" 0 [] .Synchronous], .Synchronous⟩

theorem first_block_followed :
    (regtest_node (some regtest_indexer)).chainstate.active_hashes.getLast? ≠
      some (first_block.block_hash Env.op_true.hash256) ∧
    block_hash_of .op_true genesis_bytes = some (regtest_genesis.block_hash Env.op_true.hash256) ∧
    ((regtest_node (some regtest_indexer)).process_block .op_true first_block.encode
      (regtest_world 300)).2.chainstate.active_hashes =
        [regtest_genesis.block_hash Env.op_true.hash256, first_block.block_hash Env.op_true.hash256] ∧
    ∃ manager ∈ (((regtest_node (some regtest_indexer)).process_block .op_true first_block.encode
        (regtest_world 300)).2.process_block .op_true first_block.encode (regtest_world 600)).2.indexer_manager,
      ∃ inst ∈ manager.indexers, effects .op_true inst ≠
        blocks_from (((regtest_node (some regtest_indexer)).process_block .op_true first_block.encode
          (regtest_world 300)).2.process_block .op_true first_block.encode (regtest_world 600)).2.chainstate.active_hashes
          inst.start_height.toNat := by
  decide +kernel

theorem follow_first_block :
    FollowStep .op_true "alkanes" (regtest_node (some regtest_indexer)) (first_block.encode, regtest_world 300)
      ((regtest_node (some regtest_indexer)).process_block .op_true first_block.encode (regtest_world 300)).2 := by
  obtain ⟨htip, _⟩ := first_block_followed
  refine ⟨rfl, fun _ _ _ _ => rfl, rfl, ?_⟩
  intro block rest pos hread hpos
  rw [decode_first_block] at hread
  cases hread
  cases hpos
  exact ⟨htip, (first_block_extends (some regtest_indexer)).climbs⟩

theorem indexer_follows_first_block :
    ∃ inst, Watched ((regtest_node (some regtest_indexer)).process_block .op_true first_block.encode
        (regtest_world 300)).2 0 inst ∧
      effects .op_true inst = [(0, some (regtest_genesis.block_hash Env.op_true.hash256)),
        (1, some (first_block.block_hash Env.op_true.hash256))] := by
  obtain ⟨_, hgenesis, hhashes, _⟩ := first_block_followed
  have hat : regtest_indexer.indexers[0]? =
      some (IndexerInstance.new (fun _ _ _ => true) "alkanes" 0 [] .Synchronous) := rfl
  obtain ⟨inst, hwatched, hiff⟩ := indexer_follows_chain_iff (startup_regtest (some regtest_indexer)) rfl rfl hat
    (fun _ _ _ _ => rfl) (.cons follow_first_block (.nil _))
  refine ⟨inst, hwatched, ?_⟩
  rw [hiff.mpr ⟨rfl, hgenesis⟩, hhashes]
  rfl

theorem LiveNodeInterface.two_calls (node : LiveNodeInterface) (first second : List UInt8) (before after : World) :
    Trace (fun node (call : List UInt8 × World) next => next = (node.process_block .op_true call.1 call.2).2) node
      [(first, before), (second, after)]
      ((node.process_block .op_true first before).2.process_block .op_true second after).2 :=
  .cons rfl (.cons rfl (.nil _))

/-- The first block is the tip already and is reported as accepted again, and the indexer is
    run on it twice. -/
theorem indexer_follows_chain_fails :
    ∃ node after manager inst,
      startup .op_true (regtest_settings (some regtest_indexer)) .empty (regtest_world 0) = .ok node ∧
      Trace (fun node (call : List UInt8 × World) next => next = (node.process_block .op_true call.1 call.2).2) node
        [(first_block.encode, regtest_world 300), (first_block.encode, regtest_world 600)] after ∧
      after.indexer_manager = some manager ∧ inst ∈ manager.indexers ∧
      effects .op_true inst ≠ blocks_from after.chainstate.active_hashes inst.start_height.toNat := by
  obtain ⟨_, _, _, manager, hmanager, inst, hmem, hne⟩ := first_block_followed
  exact ⟨_, _, manager, inst, startup_regtest (some regtest_indexer),
    (regtest_node (some regtest_indexer)).two_calls _ _ _ _, hmanager, hmem, hne⟩

end qubitcoin.qubitcoind
