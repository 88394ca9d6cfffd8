import Qubitcoin.Primitives

/-! `qubitcoin-indexer/lib.rs`: the secondary indexers of the node. -/

namespace qubitcoin.indexer

abbrev Bytes := List UInt8

inductive IndexerMode where
  | Synchronous | Async
  deriving DecidableEq, Repr

/-- A loaded indexer. What its database holds is computed from the blocks of the runs that
    have succeeded, in their order. `block_sender` is the queue of its worker thread. -/
structure IndexerInstance where
  label : String
  tip_height : UInt32
  start_height : UInt32
  depends_on : List String
  paused : Bool
  block_sender : Option (List (UInt32 × Bytes))
  processed : List (UInt32 × Bytes)
  deriving DecidableEq, Repr

structure IndexerManager where
  indexers : List IndexerInstance
  mode : IndexerMode
  deriving DecidableEq, Repr

/-- Whether the runtime succeeds in a run of an indexer. -/
abbrev Runtime := IndexerInstance → UInt32 → Bytes → Bool

variable (runtime : Runtime)

def run_indexer_block (inst : IndexerInstance) (height : UInt32) (input : Bytes) : IndexerInstance :=
  let block_data := if 4 < input.length then input.drop 4 else input
  if runtime inst height block_data then
    { inst with tip_height := height, processed := inst.processed ++ [(height, block_data)] }
  else inst

/-- The block that an indexer with a fresh database is run on first. -/
def genesis_bytes : Bytes := [
  0x01, 0x00, 0x00, 0x00, 0x00, 0x00, 0x00, 0x00, 0x00, 0x00, 0x00, 0x00, 0x00, 0x00, 0x00, 0x00,
  0x00, 0x00, 0x00, 0x00, 0x00, 0x00, 0x00, 0x00, 0x00, 0x00, 0x00, 0x00, 0x00, 0x00, 0x00, 0x00,
  0x00, 0x00, 0x00, 0x00, 0x3b, 0xa3, 0xed, 0xfd, 0x7a, 0x7b, 0x12, 0xb2, 0x7a, 0xc7, 0x2c, 0x3e,
  0x67, 0x76, 0x8f, 0x61, 0x7f, 0xc8, 0x1b, 0xc3, 0x88, 0x8a, 0x51, 0x32, 0x3a, 0x9f, 0xb8, 0xaa,
  0x4b, 0x1e, 0x5e, 0x4a, 0xda, 0xe5, 0x49, 0x4d, 0xff, 0xff, 0x7f, 0x20, 0x02, 0x00, 0x00, 0x00,
  0x01, 0x01, 0x00, 0x00, 0x00, 0x01, 0x00, 0x00, 0x00, 0x00, 0x00, 0x00, 0x00, 0x00, 0x00, 0x00,
  0x00, 0x00, 0x00, 0x00, 0x00, 0x00, 0x00, 0x00, 0x00, 0x00, 0x00, 0x00, 0x00, 0x00, 0x00, 0x00,
  0x00, 0x00, 0x00, 0x00, 0x00, 0x00, 0xff, 0xff, 0xff, 0xff, 0x4d, 0x04, 0xff, 0xff, 0x00, 0x1d,
  0x01, 0x04, 0x45, 0x54, 0x68, 0x65, 0x20, 0x54, 0x69, 0x6d, 0x65, 0x73, 0x20, 0x30, 0x33, 0x2f,
  0x4a, 0x61, 0x6e, 0x2f, 0x32, 0x30, 0x30, 0x39, 0x20, 0x43, 0x68, 0x61, 0x6e, 0x63, 0x65, 0x6c,
  0x6c, 0x6f, 0x72, 0x20, 0x6f, 0x6e, 0x20, 0x62, 0x72, 0x69, 0x6e, 0x6b, 0x20, 0x6f, 0x66, 0x20,
  0x73, 0x65, 0x63, 0x6f, 0x6e, 0x64, 0x20, 0x62, 0x61, 0x69, 0x6c, 0x6f, 0x75, 0x74, 0x20, 0x66,
  0x6f, 0x72, 0x20, 0x62, 0x61, 0x6e, 0x6b, 0x73, 0xff, 0xff, 0xff, 0xff, 0x01, 0x00, 0xf2, 0x05,
  0x2a, 0x01, 0x00, 0x00, 0x00, 0x43, 0x41, 0x04, 0x96, 0xb5, 0x38, 0xe8, 0x53, 0x51, 0x9c, 0x72,
  0x6a, 0x2c, 0x91, 0xe6, 0x1e, 0xc1, 0x16, 0x00, 0xae, 0x13, 0x90, 0x81, 0x3a, 0x62, 0x7c, 0x66,
  0xfb, 0x8b, 0xe7, 0x94, 0x7b, 0xe6, 0x3c, 0x52, 0xda, 0x75, 0x89, 0x37, 0x95, 0x15, 0xd4, 0xe0,
  0xa6, 0x04, 0xf8, 0x14, 0x17, 0x81, 0xe6, 0x22, 0x94, 0x72, 0x11, 0x66, 0xbf, 0x62, 0x1e, 0x73,
  0xa8, 0x2c, 0xbf, 0x23, 0x42, 0xc8, 0x58, 0xee, 0xac, 0x00, 0x00, 0x00, 0x00]

def IndexerInstance.new (label : String) (start_height : UInt32) (depends_on : List String) (mode : IndexerMode) :
    IndexerInstance :=
  let inst : IndexerInstance :=
    { label, tip_height := 0, start_height, depends_on, paused := false
      block_sender := if mode = .Async then some [] else none, processed := [] }
  if runtime inst 0 genesis_bytes then { inst with processed := [(0, genesis_bytes)] } else inst

/-- The worker of an indexer takes the next block of its queue. -/
def IndexerInstance.work (self : IndexerInstance) : IndexerInstance :=
  match self.block_sender with
  | some ((height, input) :: rest) =>
    let self := { self with block_sender := some rest }
    if self.paused || decide (height < self.start_height) then self
    else run_indexer_block runtime self height input
  | _ => self

/-- The loop over the indexers of a phase: those that wait for a later block or are paused
    are passed over. -/
def run_phase (height : UInt32) (input : Bytes) (selected : IndexerInstance → Bool)
    (indexers : List IndexerInstance) : List IndexerInstance :=
  indexers.map fun inst =>
    if selected inst && !(decide (height < inst.start_height) || inst.paused) then
      run_indexer_block runtime inst height input
    else inst

/-- Every dependency has reached the height. -/
def dependencies_satisfied (indexers : List IndexerInstance) (inst : IndexerInstance) (height : UInt32) : Bool :=
  inst.depends_on.all fun dep_label =>
    match indexers.find? fun dep => dep.label == dep_label with
    | some dep => !decide (dep.tip_height < height)
    | none => false

/-- Hand a block over to the worker of an indexer. -/
def IndexerInstance.send (self : IndexerInstance) (height : UInt32) (input : Bytes) : IndexerInstance :=
  if decide (height < self.start_height) || self.paused then self
  else { self with block_sender := self.block_sender.map fun queue => queue ++ [(height, input)] }

/-- Tell all indexers of a new block. Those without dependencies come first. -/
def IndexerManager.on_block_connected (self : IndexerManager) (height : UInt32) (block_data : Bytes) : IndexerManager :=
  let input := littleEndian.toBytes 4 height.toNat ++ block_data
  match self.mode with
  | .Async => { self with indexers := self.indexers.map fun inst => inst.send height input }
  | .Synchronous =>
    let indexers := run_phase runtime height input (fun inst => inst.depends_on.isEmpty) self.indexers
    { self with
      indexers := run_phase runtime height input
        (fun inst => !inst.depends_on.isEmpty && dependencies_satisfied indexers inst height) indexers }

/-- An indexer that is run on every block: it is not paused, depends on no other one and
    its runs succeed. -/
structure IndexerInstance.Steady (inst : IndexerInstance) : Prop where
  paused : inst.paused = false
  depends_on : inst.depends_on = []
  succeeds : ∀ other height block_data, other.label = inst.label → runtime other height block_data = true

/-- What a block does to a steady indexer. -/
def IndexerInstance.after (self : IndexerInstance) (height : UInt32) (block_data : Bytes) : IndexerInstance :=
  if height < self.start_height then self
  else { self with tip_height := height, processed := self.processed ++ [(height, block_data)] }

variable {runtime}

theorem IndexerInstance.Steady.run {inst : IndexerInstance} (hsteady : inst.Steady runtime) {height : UInt32}
    {block_data : Bytes} (hdata : block_data ≠ []) :
    run_indexer_block runtime inst height (littleEndian.toBytes 4 height.toNat ++ block_data) =
      { inst with tip_height := height, processed := inst.processed ++ [(height, block_data)] } := by
  have hinitial := littleEndian.length_toBytes 4 height.toNat
  have hlong : 4 < (littleEndian.toBytes 4 height.toNat ++ block_data).length := by
    have := List.length_pos_iff.mpr hdata
    rw [List.length_append]
    omega
  unfold run_indexer_block
  rw [if_pos hlong, List.drop_left' hinitial]
  dsimp only
  rw [if_pos (hsteady.succeeds inst height block_data rfl)]

theorem IndexerManager.on_block_connected_steady {self : IndexerManager} (hmode : self.mode = .Synchronous) {i : Nat}
    {inst : IndexerInstance} (hat : self.indexers[i]? = some inst) (hsteady : inst.Steady runtime) (height : UInt32)
    {block_data : Bytes} (hdata : block_data ≠ []) :
    (self.on_block_connected runtime height block_data).indexers[i]? = some (inst.after height block_data) ∧
      (self.on_block_connected runtime height block_data).mode = .Synchronous := by
  unfold IndexerManager.on_block_connected
  rw [hmode]
  refine ⟨?_, rfl⟩
  dsimp only
  unfold run_phase
  rw [List.getElem?_map, List.getElem?_map, hat, Option.map_some, Option.map_some]
  congr 1
  unfold IndexerInstance.after
  by_cases hearly : height < inst.start_height
  · simp [hearly, hsteady.depends_on]
  · simp [hearly, hsteady.depends_on, hsteady.paused, hsteady.run hdata]

theorem IndexerInstance.Steady.after {inst : IndexerInstance} (hsteady : inst.Steady runtime) (height : UInt32)
    (block_data : Bytes) : (inst.after height block_data).Steady runtime := by
  unfold IndexerInstance.after
  split
  · exact hsteady
  · exact ⟨hsteady.paused, hsteady.depends_on, hsteady.succeeds⟩

@[simp] theorem IndexerInstance.after_start_height (inst : IndexerInstance) (height : UInt32) (block_data : Bytes) :
    (inst.after height block_data).start_height = inst.start_height := by
  unfold IndexerInstance.after
  split <;> rfl

end qubitcoin.indexer
