import Qubitcoin.Chainstate.Places
import Qubitcoin.Daemon.Steps

/-! `qubitcoind/main.rs`: where the block index says that the blocks of the active chain and
    their undo data are on disk. -/

open qubitcoin primitives transaction block coins chain validation_state chainstate
  qubitcoin.validation chainparams transition

namespace qubitcoin.qubitcoind

namespace BlockFiles

variable (self : BlockFiles)

def insert_block (pos : DiskBlockPos) (block : Block) : BlockFiles :=
  { self with blocks := self.blocks.insert (pos.file, pos.pos) block }

def insert_undo (file : Int32) (undo_pos : UInt32) (undo : BlockUndo) : BlockFiles :=
  { self with undos := self.undos.insert (file, undo_pos) undo }

variable {self}

theorem read_insert_block {pos : DiskBlockPos} (hfile : 0 ≤ pos.file) (block : Block) :
    (self.insert_block pos block).read_block pos.file pos.pos = some block := by
  rw [read_block, if_neg (Int32.not_lt.mpr hfile)]
  exact AList.lookup_insert _

theorem read_block_insert {pos : DiskBlockPos} (hfree : self.blocks.lookup (pos.file, pos.pos) = none) (block : Block)
    {file : Int32} {data_pos : UInt32} {stored : Block} (hread : self.read_block file data_pos = some stored) :
    (self.insert_block pos block).read_block file data_pos = some stored := by
  unfold read_block at hread ⊢
  split at hread
  · cases hread
  · next hneg =>
    have hne : (file, data_pos) ≠ (pos.file, pos.pos) := by
      intro heq
      rw [heq, hfree] at hread
      cases hread
    rw [if_neg hneg]
    exact (AList.lookup_insert_ne hne).trans hread

theorem read_insert_undo {file : Int32} (hfile : 0 ≤ file) (undo_pos : UInt32) (undo : BlockUndo) :
    (self.insert_undo file undo_pos undo).read_undo file undo_pos = some undo := by
  rw [read_undo, if_neg (Int32.not_lt.mpr hfile)]
  exact AList.lookup_insert _

theorem read_undo_insert {file : Int32} {undo_pos : UInt32} (hfree : self.undos.lookup (file, undo_pos) = none)
    (undo : BlockUndo) {other : Int32} {other_pos : UInt32} {stored : BlockUndo}
    (hread : self.read_undo other other_pos = some stored) :
    (self.insert_undo file undo_pos undo).read_undo other other_pos = some stored := by
  unfold read_undo at hread ⊢
  split at hread
  · cases hread
  · next hneg =>
    have hne : (other, other_pos) ≠ (file, undo_pos) := by
      intro heq
      rw [heq, hfree] at hread
      cases hread
    rw [if_neg hneg]
    exact (AList.lookup_insert_ne hne).trans hread

end BlockFiles

variable (env : Env)

/-- Accept the bytes of a header. A batch of headers is one call after the other. -/
def LiveNodeInterface.accept_block_header (self : LiveNodeInterface) (header_data : List UInt8) (now : Int) :
    Except (Failure BlockError) Bool × LiveNodeInterface :=
  match BlockHeader.decode.run header_data with
  | .error e => (.error (.invalid (.deserialize e)), self)
  | .ok (header, _) =>
    match self.chainstate.accept_block_header env header now with
    | (.ok _, chainstate) => (.ok true, { self with chainstate })
    | (.error e, chainstate) => (.error (Failure.mapInvalid .chainstate e), { self with chainstate })

/-- What the network hands to the node. -/
inductive Request where
  | block (data : List UInt8) (world : World)
  | header (data : List UInt8) (now : Int)

/-- A node, with the body and the undo data of each block that was connected. -/
structure Archive where
  node : LiveNodeInterface
  connected : BlockHash → Option (Block × BlockUndo)

namespace Archive

/-- The record of a call: what it has connected. -/
def note (self : Archive) (data : List UInt8) (world : World) : BlockHash → Option (Block × BlockUndo) :=
  match (Block.decode env.hash256).run data, world.block_pos with
  | .ok (block, _), some pos =>
    match (self.node.answer env block pos world).1 with
    | .ok (_, some undo) => Function.update self.connected (block.block_hash env.hash256) (some (block, undo))
    | _ => self.connected
  | _, _ => self.connected

def apply (self : Archive) : Request → Archive
  | .block data world => ⟨(self.node.process_block env data world).2, self.note env data world⟩
  | .header data now => { self with node := (self.node.accept_block_header env data now).2 }

/-- For every block of the active chain above genesis, the index leads to the body and to the
    undo data of its connection. -/
def PointsTo (chainstate : ChainstateManager) (files : BlockFiles) (connected : BlockHash → Option (Block × BlockUndo)) :
    Prop :=
  ∀ hash ∈ chainstate.active_hashes.tail, ∃ place block undo,
    chainstate.place hash = some place ∧ connected hash = some (block, undo) ∧
      files.read_block place.file place.data_pos = some block ∧
      files.read_undo place.file place.undo_pos = some undo

def Points (self : Archive) : Prop := PointsTo self.node.chainstate self.node.block_files self.connected

/-- The conditions on the delivery of a block. The file store gives out free positions and
    writes the undo data; a block that connects with more work than the tip is a child of the
    tip, and the header of a child of the tip is in the index; and a block of the active chain
    is delivered again with the body that was connected, into the file it was in. -/
structure Recorded (archive : Archive) (block : Block) (pos : DiskBlockPos) (world : World) : Prop where
  file : 0 ≤ pos.file
  free : archive.node.block_files.blocks.lookup (pos.file, pos.pos) = none
  undo : ∃ undo_pos, world.undo_pos = some undo_pos ∧
    archive.node.block_files.undos.lookup (pos.file, undo_pos) = none
  climbs : (archive.node.received env block pos).chainstate.Climbs env block world.now
  listed : archive.node.chainstate.active_hashes.getLast? = some block.header.prev_blockhash →
    (archive.node.chainstate.lookup_block_index (block.block_hash env.hash256)).isSome = true
  again : block.block_hash env.hash256 ∈ archive.node.chainstate.active_hashes.tail →
    ∃ undo, archive.connected (block.block_hash env.hash256) = some (block, undo) ∧
      ∃ place, archive.node.chainstate.place (block.block_hash env.hash256) = some place ∧ place.file = pos.file

def PointerStep (self : Archive) (request : Request) (next : Archive) : Prop :=
  next = self.apply env request ∧
    match request with
    | .block data world => ∀ block rest pos, (Block.decode env.hash256).run data = .ok (block, rest) →
        world.block_pos = some pos → Recorded env self block pos world
    | .header _ _ => True

variable {env}

theorem PointsTo.congr {chainstate after : ChainstateManager} {files : BlockFiles}
    {connected : BlockHash → Option (Block × BlockUndo)} (hpoints : PointsTo chainstate files connected)
    (hindex : after.block_index = chainstate.block_index) (hchain : after.chain = chainstate.chain) :
    PointsTo after files connected := by
  unfold PointsTo
  rw [ChainstateManager.active_hashes_congr hindex hchain, ChainstateManager.place_congr hindex]
  exact hpoints

section

variable {archive : Archive} {block : Block} {pos : DiskBlockPos} {world : World} {chainstate : ChainstateManager}

theorem received_place (env : Env) (block : Block) (pos : DiskBlockPos)
    (hheaded : archive.node.chainstate.Headed) (query : BlockHash) :
    (archive.node.received env block pos).chainstate.place query =
      if query = block.block_hash env.hash256 then
        (archive.node.chainstate.place (block.block_hash env.hash256)).map fun place =>
          { place with file := pos.file, data_pos := pos.pos }
      else archive.node.chainstate.place query :=
  hheaded.toIndexed.place_set_file_pos (block.block_hash env.hash256) pos.file pos.pos query

theorem Recorded.points_unconnected (hrecorded : Recorded env archive block pos world)
    (hheaded : archive.node.chainstate.Headed) (hpoints : archive.Points)
    (hhashes : chainstate.active_hashes = archive.node.chainstate.active_hashes)
    (hplaces : ∀ query place, (archive.node.received env block pos).chainstate.place query = some place →
      chainstate.place query = some place) :
    PointsTo chainstate (archive.node.block_files.insert_block pos block) archive.connected := by
  intro hash hmem
  rw [hhashes] at hmem
  obtain ⟨place, stored, undo, hplace, hconnected, hblock, hundo⟩ := hpoints hash hmem
  have hreceived := received_place env block pos hheaded hash
  by_cases heq : hash = block.block_hash env.hash256
  · subst heq
    obtain ⟨_, hagain, same, hsame, hfile⟩ := hrecorded.again hmem
    rw [hplace] at hsame
    cases hsame
    rw [hconnected] at hagain
    cases hagain
    rw [if_pos rfl, hplace, Option.map_some] at hreceived
    refine ⟨_, block, undo, hplaces _ _ hreceived, hconnected, BlockFiles.read_insert_block hrecorded.file block, ?_⟩
    dsimp only
    rw [← hfile]
    exact hundo
  · rw [if_neg heq, hplace] at hreceived
    exact ⟨place, stored, undo, hplaces _ _ hreceived, hconnected,
      BlockFiles.read_block_insert hrecorded.free block hblock, hundo⟩

theorem Recorded.points_connected (hrecorded : Recorded env archive block pos world)
    (hheaded : archive.node.chainstate.Headed) (hpoints : archive.Points) {undo : BlockUndo} {undo_pos : UInt32}
    (hundo_pos : world.undo_pos = some undo_pos) (hindexed : chainstate.Indexed)
    (hhashes : ∀ hash ∈ chainstate.active_hashes.tail, hash ≠ block.block_hash env.hash256 →
      hash ∈ archive.node.chainstate.active_hashes.tail)
    (hlisted : block.block_hash env.hash256 ∈ chainstate.active_hashes.tail →
      (archive.node.chainstate.place (block.block_hash env.hash256)).isSome = true)
    (hplaces : ∀ query place, (archive.node.received env block pos).chainstate.place query = some place →
      chainstate.place query = some place)
    (hset : (chainstate.set_undo_pos (block.block_hash env.hash256) undo_pos).active_hashes = chainstate.active_hashes) :
    PointsTo (chainstate.set_undo_pos (block.block_hash env.hash256) undo_pos)
      ((archive.node.block_files.insert_block pos block).insert_undo pos.file undo_pos undo)
      (Function.update archive.connected (block.block_hash env.hash256) (some (block, undo))) := by
  obtain ⟨free_pos, hfree_pos, hfree⟩ := hrecorded.undo
  rw [hundo_pos] at hfree_pos
  cases hfree_pos
  intro hash hmem
  rw [hset] at hmem
  have hafter := hindexed.place_set_undo_pos (block.block_hash env.hash256) undo_pos hash
  have hreceived := received_place env block pos hheaded hash
  by_cases heq : hash = block.block_hash env.hash256
  · subst heq
    obtain ⟨place, hplace⟩ := Option.isSome_iff_exists.mp (hlisted hmem)
    rw [if_pos rfl, hplace, Option.map_some] at hreceived
    rw [if_pos rfl, hplaces _ _ hreceived, Option.map_some] at hafter
    exact ⟨_, block, undo, hafter, Function.update_self .., BlockFiles.read_insert_block hrecorded.file block,
      BlockFiles.read_insert_undo hrecorded.file undo_pos undo⟩
  · obtain ⟨place, stored, old, hplace, hconnected, hblock, hundo⟩ := hpoints hash (hhashes hash hmem heq)
    rw [if_neg heq, hplace] at hreceived
    rw [if_neg heq, hplaces _ _ hreceived] at hafter
    have hkept : (archive.node.block_files.insert_block pos block).read_undo place.file place.undo_pos = some old := hundo
    exact ⟨place, stored, old, hafter, (Function.update_of_ne heq ..).trans hconnected,
      BlockFiles.read_block_insert hrecorded.free block hblock, BlockFiles.read_undo_insert hfree undo hkept⟩

theorem advance_none {before after : List BlockHash} {hash : BlockHash} {accepted : Bool}
    (hadvance : ChainstateManager.Advance before hash (.ok (accepted, none)) after) : after = before := by
  cases hadvance with
  | stays _ => rfl
  | repeated _ _ => rfl

theorem advance_some {before after : List BlockHash} {hash : BlockHash} {accepted : Bool} {undo : BlockUndo}
    (hadvance : ChainstateManager.Advance before hash (.ok (accepted, some undo)) after) :
    after = before ∨ (after = before ++ [hash] ∧ accepted = true) := by
  cases hadvance with
  | stays _ => exact .inl rfl
  | repeated _ _ => exact .inl rfl
  | grows _ _ => exact .inr ⟨rfl, rfl⟩

theorem points_finish {node : LiveNodeInterface} {connected : BlockHash → Option (Block × BlockUndo)}
    (hheaded : node.chainstate.Headed) (hpoints : PointsTo node.chainstate node.block_files connected)
    (data : List UInt8) (accepted : Bool) :
    (node.finish block data pos world accepted).chainstate.Headed ∧
      PointsTo (node.finish block data pos world accepted).chainstate
        (node.finish block data pos world accepted).block_files connected := by
  cases accepted with
  | false => exact ⟨hheaded, hpoints⟩
  | true =>
    obtain ⟨hindex, hchain, hbest, hfiles, _⟩ := node.on_accepted_frame block data pos world
    refine ⟨hheaded.congr hindex hchain hbest, ?_⟩
    change PointsTo _ (node.on_accepted block data pos world).block_files connected
    rw [hfiles]
    exact hpoints.congr hindex hchain

theorem Handled.points {data : List UInt8} {after : LiveNodeInterface}
    (hhandled : LiveNodeInterface.Handled env archive.node block data pos world after)
    (hrecorded : Recorded env archive block pos world) (hheaded : archive.node.chainstate.Headed)
    (hpoints : archive.Points) :
    after.chainstate.Headed ∧ PointsTo after.chainstate after.block_files
      (match (archive.node.answer env block pos world).1 with
        | .ok (_, some undo) => Function.update archive.connected (block.block_hash env.hash256) (some (block, undo))
        | _ => archive.connected) := by
  obtain ⟨hreceived, hreceived_hashes⟩ :=
    hheaded.set_file_pos (block.block_hash env.hash256) pos.file pos.pos
  have hwritten : (archive.node.received env block pos).chainstate =
      archive.node.chainstate.set_file_pos (block.block_hash env.hash256) pos.file pos.pos := rfl
  rw [← hwritten] at hreceived hreceived_hashes
  have hplaces (query : BlockHash) (place : Place) := @ChainstateManager.Headed.place_process_new_block _ env hreceived
    block world.now (archive.node.received env block pos).block_files.reader hrecorded.climbs query place
  have hgrows (undo : BlockUndo) := @ChainstateManager.Headed.prev_of_grows _ env hreceived block world.now
    (archive.node.received env block pos).block_files.reader hrecorded.climbs undo
  obtain ⟨hprocessed, hadvance⟩ := ChainstateManager.Headed.process_new_block env hreceived
    (archive.node.received env block pos).block_files.reader hrecorded.climbs
  have hfold : (archive.node.received env block pos).chainstate.process_new_block env block world.now
      (archive.node.received env block pos).block_files.reader = archive.node.answer env block pos world := rfl
  rw [hfold] at hplaces hprocessed hadvance hgrows
  rw [hreceived_hashes] at hadvance hgrows
  cases hhandled with
  | @failed e chainstate hanswer =>
    rw [hanswer] at hprocessed hadvance hplaces ⊢
    refine ⟨hprocessed, hrecorded.points_unconnected hheaded hpoints ?_ hplaces⟩
    dsimp only at hadvance ⊢
    generalize chainstate.active_hashes = hashes at hadvance ⊢
    cases hadvance with
    | stays _ => rfl
  | not_undone _ hnone =>
    obtain ⟨undo_pos, hundo, _⟩ := hrecorded.undo
    rw [hnone] at hundo
    cases hundo
  | @known accepted chainstate hanswer =>
    rw [hanswer] at hprocessed hadvance hplaces ⊢
    exact points_finish hprocessed
      (hrecorded.points_unconnected hheaded hpoints (advance_none hadvance) hplaces) data accepted
  | @connected accepted undo undo_pos chainstate hanswer hundo =>
    rw [hanswer] at hprocessed hadvance hplaces hgrows ⊢
    obtain ⟨hset, hset_hashes⟩ := hprocessed.set_undo_pos (block.block_hash env.hash256) undo_pos
    obtain ⟨_, hnonempty, _⟩ := hheaded.length_active_hashes
    have htail := advance_some hadvance
    refine points_finish hset ?_ data accepted
    refine hrecorded.points_connected hheaded hpoints hundo hprocessed.toIndexed ?_ ?_ hplaces hset_hashes
    · intro hash hmem hne
      obtain hsame | ⟨hgrown, _⟩ := htail
      · rwa [hsame] at hmem
      · rw [hgrown, List.tail_append_of_ne_nil (List.ne_nil_of_length_pos hnonempty)] at hmem
        obtain hold | hnew := List.mem_append.mp hmem
        · exact hold
        · exact absurd (List.mem_singleton.mp hnew) hne
    · -- A block that is appended has its header in the index.
      intro hmem
      obtain hsame | ⟨_, rfl⟩ := htail
      · rw [hsame] at hmem
        obtain ⟨place, _, _, hplace, _⟩ := hpoints _ hmem
        exact Option.isSome_iff_exists.mpr ⟨place, hplace⟩
      · rw [ChainstateManager.place_isSome]
        by_contra hunknown
        have hnone : (archive.node.received env block pos).chainstate.block_index.find_by_hash
            (block.block_hash env.hash256) = none := by
          have hbefore := Option.not_isSome_iff_eq_none.mp hunknown
          rw [hwritten]
          unfold ChainstateManager.set_file_pos ChainstateManager.lookup_block_index
          rw [hbefore]
          exact hbefore
        exact hunknown (hrecorded.listed (hgrows undo rfl hnone))

end

theorem PointerStep.points {archive next : Archive} {request : Request} (hstep : archive.PointerStep env request next)
    (hheaded : archive.node.chainstate.Headed) (hpoints : archive.Points) :
    next.node.chainstate.Headed ∧ next.Points := by
  obtain ⟨rfl, hrecorded⟩ := hstep
  cases request with
  | block data world =>
    change (archive.node.process_block env data world).2.chainstate.Headed ∧
      PointsTo (archive.node.process_block env data world).2.chainstate
        (archive.node.process_block env data world).2.block_files (archive.note env data world)
    cases hread : (Block.decode env.hash256).run data with
    | error e =>
      have hsame : (archive.node.process_block env data world).2 = archive.node := by
        unfold LiveNodeInterface.process_block
        rw [hread]
      have hnote : archive.note env data world = archive.connected := by
        unfold note
        rw [hread]
      rw [hsame, hnote]
      exact ⟨hheaded, hpoints⟩
    | ok result =>
      obtain ⟨block, rest⟩ := result
      cases hpos : world.block_pos with
      | none =>
        have hsame : (archive.node.process_block env data world).2 = archive.node := by
          unfold LiveNodeInterface.process_block
          rw [hread]
          dsimp only
          rw [hpos]
        have hnote : archive.note env data world = archive.connected := by
          unfold note
          rw [hread, hpos]
        rw [hsame, hnote]
        exact ⟨hheaded, hpoints⟩
      | some pos =>
        have hafter := Handled.points (LiveNodeInterface.process_block_handled env hread hpos)
          (hrecorded block rest pos hread hpos) hheaded hpoints
        unfold note
        rw [hread, hpos]
        exact hafter
  | header data now =>
    change (archive.node.accept_block_header env data now).2.chainstate.Headed ∧
      PointsTo (archive.node.accept_block_header env data now).2.chainstate
        (archive.node.accept_block_header env data now).2.block_files archive.connected
    cases hread : BlockHeader.decode.run data with
    | error e =>
      unfold LiveNodeInterface.accept_block_header
      rw [hread]
      exact ⟨hheaded, hpoints⟩
    | ok result =>
      obtain ⟨header, rest⟩ := result
      have hsame : (archive.node.accept_block_header env data now).2 =
          { archive.node with chainstate := (archive.node.chainstate.accept_block_header env header now).2 } := by
        unfold LiveNodeInterface.accept_block_header
        rw [hread]
        dsimp only
        split
        · next haccept => rw [haccept]
        · next haccept => rw [haccept]
      obtain ⟨hafter, hhashes⟩ := hheaded.accept_block_header env header now
      rw [hsame]
      refine ⟨hafter, ?_⟩
      intro hash hmem
      rw [hhashes] at hmem
      obtain ⟨place, block, undo, hplace, hrest⟩ := hpoints hash hmem
      exact ⟨place, block, undo, hheaded.toIndexed.place_accept_block_header env header now hplace, hrest⟩

variable (env)

/-- In every run of such calls from a new data directory, the index entry of each block of
    the active chain above genesis leads to that block and to its undo data. -/
theorem pointers_match {settings : Settings} {world : World} {node : LiveNodeInterface} {after : Archive}
    {requests : List Request} (hstart : startup env settings .empty world = .ok node)
    (hrun : Trace (PointerStep env) ⟨node, fun _ => none⟩ requests after) : after.Points := by
  have hfresh := startup_empty env hstart
  have hinv := hrun.invariant (fun archive => archive.node.chainstate.Headed ∧ archive.Points)
    (fun hinv hstep => hstep.points hinv.1 hinv.2) ⟨hfresh.headed, ?_⟩
  · exact hinv.2
  · intro hash hmem
    rw [hfresh.active_hashes] at hmem
    cases hmem

def regtest_archive : Archive := ⟨regtest_node none, fun _ => none⟩

/-- The node that has accepted the header of the first block. -/
def header_archive : Archive := regtest_archive.apply .op_true (.header first_block.header.encode regtest_now)

/-- Whether the block that reaches its connection is a child of the tip. -/
def reaches_child (self : Archive) : Bool :=
  ((self.node.received .op_true first_block ⟨0, 300⟩).chainstate.at_connect .op_true first_block regtest_now).all
    fun reached => decide ((self.node.received .op_true first_block ⟨0, 300⟩).chainstate.chain.tip =
      parent_of reached.2.arena reached.1)

/-- The node that gets the first block without its header. -/
def first_archive : Archive := regtest_archive.apply .op_true (.block first_block.encode (regtest_world 300))

theorem first_block_archives :
    (header_archive.reaches_child = true ∧
      (header_archive.node.chainstate.lookup_block_index (first_block.block_hash Env.op_true.hash256)).isSome = true ∧
      first_block.block_hash Env.op_true.hash256 ∉ header_archive.node.chainstate.active_hashes.tail ∧
      header_archive.node.block_files.blocks.lookup (0, 300) = none ∧
      header_archive.node.block_files.undos.lookup (0, 300) = none ∧
      (header_archive.apply .op_true (.block first_block.encode (regtest_world 300))).node.chainstate.active_hashes.tail =
        [first_block.block_hash Env.op_true.hash256]) ∧
    first_block.block_hash Env.op_true.hash256 ∈ first_archive.node.chainstate.active_hashes.tail ∧
      (first_archive.node.chainstate.place (first_block.block_hash Env.op_true.hash256)).bind (fun place =>
        first_archive.node.block_files.read_block place.file place.data_pos) = some regtest_genesis ∧
      (first_archive.connected (first_block.block_hash Env.op_true.hash256)).map Prod.fst = some first_block ∧
      first_block ≠ regtest_genesis := by
  decide +kernel

theorem header_archive_recorded : Recorded .op_true header_archive first_block ⟨0, 300⟩ (regtest_world 300) := by
  obtain ⟨⟨hchild, hlisted, hnew, hfree, hundo, _⟩, _⟩ := first_block_archives
  refine ⟨by decide, hfree, ⟨300, rfl, hundo⟩, ?_, fun _ => hlisted, fun hmem => absurd hmem hnew⟩
  intro idx mid undo coins_tip tip hreach _ hsome _
  unfold reaches_child at hchild
  have hreach : (header_archive.node.received .op_true first_block ⟨0, 300⟩).chainstate.at_connect .op_true first_block
      regtest_now = some (idx, mid) := hreach
  rw [hreach, Option.all_some, decide_eq_true_eq] at hchild
  exact hchild.symm.trans hsome

theorem pointers_match_first_block :
    (header_archive.apply .op_true (.block first_block.encode (regtest_world 300))).node.chainstate.active_hashes.tail =
        [first_block.block_hash Env.op_true.hash256] ∧
      (header_archive.apply .op_true (.block first_block.encode (regtest_world 300))).Points := by
  have hheader : PointerStep .op_true regtest_archive (.header first_block.header.encode regtest_now) header_archive :=
    ⟨rfl, trivial⟩
  refine ⟨first_block_archives.1.2.2.2.2.2,
    pointers_match .op_true (startup_regtest none) (.cons hheader (.cons ⟨rfl, ?_⟩ (.nil _)))⟩
  intro block rest pos hread hpos
  rw [decode_first_block] at hread
  cases hread
  cases hpos
  exact header_archive_recorded

/-- A block whose header is new is connected, and its entry keeps the position with which it
    was made, where another block is. -/
theorem pointers_match_fails : ¬ first_archive.Points := by
  intro hpoints
  obtain ⟨_, hmem, hread, hnoted, hne⟩ := first_block_archives
  obtain ⟨place, block, undo, hplace, hconnected, hblock, _⟩ := hpoints _ hmem
  rw [hplace, Option.bind_some, hblock] at hread
  rw [hconnected] at hnoted
  exact hne ((Option.some.inj hnoted).symm.trans (Option.some.inj hread))

end Archive

end qubitcoin.qubitcoind
