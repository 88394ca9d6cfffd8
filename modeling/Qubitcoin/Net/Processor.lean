import Qubitcoin.Coins.Cache

/-! `qubitcoin-net/net_processing.rs`: headers, block download and the batches of blocks that
    are handed to the node. Messages that are sent to peers are not recorded. -/

open qubitcoin.primitives

namespace qubitcoin.net_processing

def MAX_INV_SIZE : Nat := 50000
def MAX_HEADERS_RESULTS : Nat := 2000
def MAX_BLOCKS_IN_TRANSIT_PER_PEER : Nat := 32
def BLOCK_STALLING_TIMEOUT : Nat := 8
def BLOCK_DOWNLOAD_TIMEOUT_BASE : Nat := 600

/-- A point of time or a duration, in nanoseconds. -/
abbrev Instant := Nat

def Instant.from_secs (secs : Nat) : Instant := secs * 1000000000

def Instant.as_secs (duration : Instant) : Nat := duration / 1000000000

/-- How a call of `process_block` ends. -/
inductive Verdict where
  | returned (result : Except String Bool)
  | panicked (message : String)
  deriving DecidableEq

/-- The answer that a blocking task reports: a panic is caught and becomes an error. -/
def Verdict.result : Verdict → Except String Bool
  | .returned result => result
  | .panicked message => .error ("panic: " ++ message)

def Verdict.is_ok (self : Verdict) : Bool := self.result.isOk

/-- What the node answers at one moment. -/
structure NodeInterface where
  process_block : List UInt8 → Verdict
  accept_block_headers_batch : List (List UInt8) → List (Except String Bool)
  chain_height : Int

/-- What one turn of the loop reads from outside: the clock, the order in which a hash map
    gives out the peers, and the node. -/
structure World where
  now : Instant
  order : List Nat → List Nat
  order_perm : ∀ peers, (order peers).Perm peers
  node : NodeInterface

/-- The part of a peer's state that block download reads. -/
structure PeerSyncState where
  handshake_complete : Bool
  blocks_in_flight : List (BlockHash × Instant)
  discouraged : Bool
  stall_count : Nat
  deriving DecidableEq

def PeerSyncState.new : PeerSyncState := ⟨false, [], false, 0⟩

def PeerSyncState.active (self : PeerSyncState) : Bool := self.handshake_complete && !self.discouraged

def PeerSyncState.in_flight (self : PeerSyncState) (hash : BlockHash) : Bool :=
  self.blocks_in_flight.any (·.1 == hash)

/-- A peer that has stalled before gets half of the usual limit, later a quarter. -/
def PeerSyncState.peer_limit (self : PeerSyncState) : Nat :=
  if self.stall_count ≥ 3 then max (MAX_BLOCKS_IN_TRANSIT_PER_PEER / 4) 4
  else if self.stall_count ≥ 1 then max (MAX_BLOCKS_IN_TRANSIT_PER_PEER / 2) 4
  else MAX_BLOCKS_IN_TRANSIT_PER_PEER

structure BlockProcessResult where
  hash : BlockHash
  peer_id : Nat
  height : Nat
  result : Except String Bool
  batch_done : Bool
  deriving DecidableEq

/-- A blocking task: the blocks it has still to process and the `header_chain` index of the
    first of them. -/
structure Batch where
  next_idx : Nat
  blocks : List (BlockHash × Nat × List UInt8)
  deriving DecidableEq

/-- A call of `process_block`: by a batch, for an index of `header_chain`, or by
    `handle_block` itself. -/
inductive Call where
  | ordered (idx : Nat) (data : List UInt8) (verdict : Verdict)
  | direct (data : List UInt8) (verdict : Verdict)
  deriving DecidableEq

def Call.data : Call → List UInt8
  | .ordered _ data _ => data
  | .direct data _ => data

def Call.verdict : Call → Verdict
  | .ordered _ _ verdict => verdict
  | .direct _ verdict => verdict

/-- The index that a batch has handed over. -/
def Call.idx : Call → Option Nat
  | .ordered idx _ _ => some idx
  | .direct _ _ => none

/-- The processor, with its tasks on the blocking threadpool. The last three fields are a
    record of the run: where the fast-forward has put `next_process_idx`, the calls of
    `process_block` in their order, and whether the loop was ended by a panic. -/
structure NetProcessor where
  header_chain : List BlockHash
  header_set : Finset BlockHash
  blocks_to_download : List BlockHash
  blocks_downloaded : Finset BlockHash
  pending_blocks : HashMap BlockHash (Nat × List UInt8)
  next_process_idx : Nat
  peer_states : HashMap Nat PeerSyncState
  last_reconnect_attempt : Instant
  block_result_rx : List BlockProcessResult
  block_processing : Bool
  block_download_started : Bool
  tasks : List Batch
  initial_idx : Nat
  calls : List Call
  halted : Bool

namespace NetProcessor

def new (now : Instant) : NetProcessor where
  header_chain := []
  header_set := ∅
  blocks_to_download := []
  blocks_downloaded := ∅
  pending_blocks := ∅
  next_process_idx := 0
  peer_states := ∅
  last_reconnect_attempt := now
  block_result_rx := []
  block_processing := false
  block_download_started := false
  tasks := []
  initial_idx := 0
  calls := []
  halted := false

variable (self : NetProcessor) (world : World)

def update_peer (peer_id : Nat) (f : PeerSyncState → PeerSyncState) : NetProcessor :=
  match self.peer_states.lookup peer_id with
  | some state => { self with peer_states := self.peer_states.insert peer_id (f state) }
  | none => self

/-- The peers with a property, in the order of iteration. -/
def peers_with (p : PeerSyncState → Bool) : List Nat :=
  (world.order self.peer_states.keys).filter fun peer_id =>
    match self.peer_states.lookup peer_id with
    | some state => p state
    | none => false

/-- The blocks that one `request_blocks` takes from the queue and what it leaves there: at most
    `slots` requests and at most `pops` removals. -/
def assign_blocks (downloaded : Finset BlockHash) : (slots pops : Nat) → List BlockHash →
    List BlockHash × List BlockHash
  | 0, _, queue => ([], queue)
  | _, 0, queue => ([], queue)
  | _, _, [] => ([], [])
  | slots + 1, pops + 1, hash :: queue =>
    if hash ∈ downloaded then assign_blocks downloaded (slots + 1) pops queue
    else
      let (requested, left) := assign_blocks downloaded slots pops queue
      (hash :: requested, left)

def request_blocks (peer_id : Nat) : NetProcessor :=
  if self.pending_blocks.entries.length > 8000 then self
  else
    match self.peer_states.lookup peer_id with
    | none => self
    | some state =>
      if state.blocks_in_flight.length ≥ state.peer_limit then self
      else
        let available := state.peer_limit - state.blocks_in_flight.length
        let (requested, left) :=
          assign_blocks self.blocks_downloaded available (available + 64) self.blocks_to_download
        let state := { state with
          blocks_in_flight := state.blocks_in_flight ++ requested.map fun hash => (hash, world.now) }
        { self with blocks_to_download := left, peer_states := self.peer_states.insert peer_id state }

def request_from (peer_ids : List Nat) : NetProcessor :=
  peer_ids.foldl (fun self peer_id => self.request_blocks world peer_id) self

def start_block_download : NetProcessor := self.request_from world (self.peers_with world PeerSyncState.active)

def misbehaving (peer_id : Nat) : NetProcessor :=
  self.update_peer peer_id fun state => { state with discouraged := true }

/-- The consecutive buffered blocks at the front of a part of the header chain, and the buffer
    without them. -/
def take_batch : Nat → List BlockHash → HashMap BlockHash (Nat × List UInt8) →
    List (BlockHash × Nat × List UInt8) × HashMap BlockHash (Nat × List UInt8)
  | 0, _, pending => ([], pending)
  | _, [], pending => ([], pending)
  | limit + 1, hash :: hashes, pending =>
    match pending.lookup hash with
    | none => ([], pending)
    | some (peer_id, data) =>
      let (batch, left) := take_batch limit hashes (pending.erase hash)
      ((hash, peer_id, data) :: batch, left)

def batch : List (BlockHash × Nat × List UInt8) :=
  (take_batch 500 (self.header_chain.drop self.next_process_idx) self.pending_blocks).1

/-- Take the batch out of the buffer and hand it to a new blocking task. -/
def spawn_batch : NetProcessor :=
  { self with
    pending_blocks := (take_batch 500 (self.header_chain.drop self.next_process_idx) self.pending_blocks).2
    blocks_downloaded := self.batch.foldl (fun downloaded block => downloaded.erase block.1) self.blocks_downloaded
    block_processing := true
    tasks := self.tasks ++ [⟨self.next_process_idx, self.batch⟩] }

/-- Request the block from each of the peers directly, past the backpressure. -/
def direct_request (hash : BlockHash) (peer_ids : List Nat) : NetProcessor :=
  peer_ids.foldl (fun self peer_id => self.update_peer peer_id fun state =>
    { state with blocks_in_flight := state.blocks_in_flight ++ [(hash, world.now)] }) self

/-- The peer that has the block in flight, with the time of its request: the first one that the
    iteration meets. -/
def holder_of (hash : BlockHash) : Option (Nat × Instant) :=
  (world.order self.peer_states.keys).findSome? fun peer_id =>
    (self.peer_states.lookup peer_id).bind fun state =>
      (state.blocks_in_flight.find? (·.1 == hash)).map fun request => (peer_id, request.2)

def has_room (state : PeerSyncState) : Bool :=
  state.active && decide (state.blocks_in_flight.length ≤ MAX_BLOCKS_IN_TRANSIT_PER_PEER)

/-- A block marked as downloaded that is not in the buffer is lost: it is queued again. -/
def requeue_lost (head_hash : BlockHash) : NetProcessor :=
  if head_hash ∈ self.blocks_downloaded ∧ (self.pending_blocks.lookup head_hash).isNone then
    { self with
      blocks_downloaded := self.blocks_downloaded.erase head_hash
      blocks_to_download := head_hash :: self.blocks_to_download }
  else self

def in_flight_of (peer_id : Nat) : List BlockHash :=
  match self.peer_states.lookup peer_id with
  | some state => state.blocks_in_flight.map (·.1)
  | none => []

/-- Queue all that a slow peer has in flight and request it from the other peers. -/
def redistribute (slow_pid : Nat) : NetProcessor :=
  let requeued := self.in_flight_of slow_pid
  let self := self.update_peer slow_pid fun state =>
    { state with blocks_in_flight := [], stall_count := state.stall_count + 1 }
  if requeued.isEmpty then self
  else
    let self := { self with blocks_to_download := requeued.reverse ++ self.blocks_to_download }
    self.request_from world ((self.peers_with world PeerSyncState.active).filter (· ≠ slow_pid))

/-- Take the block from a slow peer and request it from every other peer that has room. -/
def steal (head_hash : BlockHash) (slow_pid : Nat) : NetProcessor :=
  let self := self.update_peer slow_pid fun state =>
    { state with blocks_in_flight := state.blocks_in_flight.filter (·.1 ≠ head_hash) }
  let fast_peers := (self.peers_with world has_room).filter (· ≠ slow_pid)
  if fast_peers.isEmpty then
    { self with blocks_to_download := head_hash :: self.blocks_to_download }.request_blocks world slow_pid
  else (self.direct_request world head_hash fast_peers).request_blocks world slow_pid

/-- `check_head_of_line_stall` for a block that is not in the buffer. -/
def recover_head (head_hash : BlockHash) : NetProcessor :=
  let self := self.requeue_lost head_hash
  match self.holder_of world head_hash with
  | none => self.direct_request world head_hash (self.peers_with world has_room)
  | some (slow_pid, req_time) =>
    let elapsed := world.now - req_time
    if elapsed > .from_secs BLOCK_STALLING_TIMEOUT then
      if elapsed.as_secs > 20 then self.redistribute world slow_pid
      else self.steal world head_hash slow_pid
    else self

/-- Hand the next buffered blocks to a blocking task. An empty batch ends in
    `check_head_of_line_stall`, past its guards and with the head not in the buffer; see
    `try_start_next_block_eq`. -/
def try_start_next_block : NetProcessor :=
  if self.block_processing then self
  else
    match self.header_chain[self.next_process_idx]? with
    | none => self
    | some head_hash => if self.batch.isEmpty then self.recover_head world head_hash else self.spawn_batch

def check_head_of_line_stall : NetProcessor :=
  match self.header_chain[self.next_process_idx]? with
  | none => self
  | some head_hash =>
    if self.block_processing then self
    else if (self.pending_blocks.lookup head_hash).isSome then self.try_start_next_block world
    else self.recover_head world head_hash

variable {self} in
def kick_idle_peers : NetProcessor :=
  if self.blocks_to_download.isEmpty then self
  else self.request_from world (self.peers_with world fun state => state.active && state.blocks_in_flight.isEmpty)

/-- Queue what a stalled peer has in flight and discourage it. -/
def drop_stalled (peer_id : Nat) : NetProcessor :=
  match self.peer_states.lookup peer_id with
  | none => self
  | some state =>
    { self with
      blocks_to_download := self.blocks_to_download ++ state.blocks_in_flight.map (·.1)
      peer_states := self.peer_states.insert peer_id { state with discouraged := true, blocks_in_flight := [] } }

def stalled (state : PeerSyncState) : Bool :=
  match state.blocks_in_flight.head? with
  | some (_, oldest_time) => decide (world.now - oldest_time > .from_secs BLOCK_DOWNLOAD_TIMEOUT_BASE)
  | none => false

/-- Forget the discouraged peers when few others are left. -/
def reconnect : NetProcessor :=
  if (self.peers_with world PeerSyncState.active).length < 8 ∧ ¬ self.blocks_to_download.isEmpty ∧
      world.now - self.last_reconnect_attempt > .from_secs 30 then
    { self with
      last_reconnect_attempt := world.now
      peer_states := (self.peers_with world (·.discouraged)).foldl (fun states peer_id => states.erase peer_id)
        self.peer_states }
  else self

def check_stalled_peers : NetProcessor :=
  let self := (self.peers_with world (stalled world)).foldl drop_stalled self
  ((self.check_head_of_line_stall world).kick_idle_peers world).reconnect world

def push_header (tip_height_skip : Nat) (hash : BlockHash) : NetProcessor :=
  let self := { self with header_chain := self.header_chain ++ [hash] }
  if self.header_chain.length - 1 ≥ tip_height_skip ∧ hash ∉ self.blocks_downloaded then
    { self with blocks_to_download := self.blocks_to_download ++ [hash] }
  else self

/-- Follow the node's answers up to the first refusal. -/
def accept_results (tip_height_skip : Nat) :
    List (Except String Bool × BlockHash) → NetProcessor → Bool × NetProcessor
  | [], self => (true, self)
  | (.ok _, hash) :: rest, self => accept_results tip_height_skip rest (self.push_header tip_height_skip hash)
  | (.error _, hash) :: _, self => (false, { self with header_set := self.header_set.erase hash })

/-- The one-time move of `next_process_idx` past the blocks that the node already has. -/
def fast_forward (tip_height_skip : Nat) : NetProcessor :=
  if self.next_process_idx = 0 ∧ tip_height_skip > 0 ∧ ¬ self.block_processing then
    { self with next_process_idx := tip_height_skip, initial_idx := tip_height_skip }
  else self

variable (hash256 : List UInt8 → Uint256)

/-- The headers that were not known, with their hashes. -/
def new_headers : List (List UInt8) → Finset BlockHash → Finset BlockHash × List (BlockHash × List UInt8)
  | [], header_set => (header_set, [])
  | header_data :: headers, header_set =>
    if header_data.length ≥ 80 ∧ hash256 header_data ∉ header_set then
      let (header_set, rest) := new_headers headers (insert (hash256 header_data) header_set)
      (header_set, (hash256 header_data, header_data.take 80) :: rest)
    else new_headers headers header_set

def handle_headers (peer_id : Nat) (headers : List (List UInt8)) : NetProcessor :=
  if headers.length = 0 then
    if self.blocks_to_download.isEmpty then self else self.start_block_download world
  else if headers.length > MAX_HEADERS_RESULTS then self.misbehaving peer_id
  else
    let tip_height_skip := (max world.node.chain_height 0).toNat
    let self := self.fast_forward tip_height_skip
    let (header_set, new_headers) := new_headers hash256 headers self.header_set
    let results := world.node.accept_block_headers_batch (new_headers.map (·.2))
    match accept_results tip_height_skip (results.zip (new_headers.map (·.1))) { self with header_set } with
    | (false, self) => self.misbehaving peer_id
    | (true, self) =>
      let self := if !self.block_download_started && !self.blocks_to_download.isEmpty then
          { self with block_download_started := true }.start_block_download world
        else self
      if headers.length ≥ MAX_HEADERS_RESULTS then self else self.start_block_download world

/-- The answer of a direct call. A panic is not caught and ends the loop. -/
def process_directly (peer_id : Nat) (data : List UInt8) : NetProcessor :=
  let verdict := world.node.process_block data
  let in_ibd := decide (self.next_process_idx < self.header_chain.length)
  let self := { self with calls := self.calls ++ [.direct data verdict] }
  match verdict with
  | .returned (.ok _) => self
  | .returned (.error _) => if in_ibd then self else self.misbehaving peer_id
  | .panicked _ => { self with halted := true }

def mark_downloaded (peer_id : Nat) (hash : BlockHash) : NetProcessor :=
  let self := { self with blocks_downloaded := insert hash self.blocks_downloaded }
  let self := self.update_peer peer_id fun state =>
    { state with blocks_in_flight := state.blocks_in_flight.filter (·.1 ≠ hash) }
  self.request_blocks world peer_id

def handle_block (peer_id : Nat) (data : List UInt8) : NetProcessor :=
  if data.length ≥ 80 then
    let hash := hash256 (data.take 80)
    let self := self.mark_downloaded world peer_id hash
    if hash ∈ self.header_set ∨ self.next_process_idx < self.header_chain.length then
      { self with pending_blocks := self.pending_blocks.insert hash (peer_id, data) }.try_start_next_block world
    else self.process_directly world peer_id data
  else self.process_directly world peer_id data

end NetProcessor

inductive InvType where
  | Error | Tx | Block | FilteredBlock | CompactBlock | WTx | WitnessTx | WitnessBlock | WitnessFilteredBlock
  deriving DecidableEq

structure InvVect where
  inv_type : InvType
  hash : Uint256

/-- The messages that reach the state above; `other` stands for every other command. -/
inductive NetMessage where
  | Headers (headers : List (List UInt8))
  | Block (data : List UInt8)
  | Inv (inv : List InvVect)
  | GetData (inv : List InvVect)
  | FeeFilter (fee : Int)
  | NotFound (inv : List InvVect)
  | other

/-- What wakes the loop. -/
inductive Event where
  | HandshakeComplete (peer_id : Nat)
  | MessageReceived (peer_id : Nat) (message : NetMessage)
  | Disconnected (peer_id : Nat)
  | block_result
  | tick

/-- A turn of the loop, or a step of a blocking task. -/
inductive Action where
  | wake (event : Event)
  | work (task : Nat)

namespace NetProcessor

variable (self : NetProcessor) (world : World)

def handle_inv (peer_id : Nat) (inv : List InvVect) : NetProcessor :=
  if inv.length > MAX_INV_SIZE then self.misbehaving peer_id else self

def handle_not_found (peer_id : Nat) (inv : List InvVect) : NetProcessor :=
  let hashes := (inv.filter fun item => item.inv_type = .Block ∨ item.inv_type = .WitnessBlock).map (·.hash)
  self.update_peer peer_id fun state =>
    { state with blocks_in_flight := state.blocks_in_flight.filter (·.1 ∉ hashes) }

def handle_message (hash256 : List UInt8 → Uint256) (peer_id : Nat) : NetMessage → NetProcessor
  | .Headers headers => self.handle_headers world hash256 peer_id headers
  | .Block data => self.handle_block world hash256 peer_id data
  | .Inv inv => self.handle_inv peer_id inv
  | .GetData inv => self.handle_inv peer_id inv
  | .FeeFilter fee => if fee ≥ 0 then self else self.misbehaving peer_id
  | .NotFound inv => self.handle_not_found peer_id inv
  | .other => self

def handshake_complete (peer_id : Nat) : NetProcessor :=
  { self with peer_states := self.peer_states.insert peer_id { PeerSyncState.new with handshake_complete := true } }

def disconnected (peer_id : Nat) : NetProcessor :=
  let requeued := self.in_flight_of peer_id
  let self := { self with
    blocks_to_download := requeued ++ self.blocks_to_download
    peer_states := self.peer_states.erase peer_id }
  if requeued.isEmpty then self else self.request_from world (self.peers_with world PeerSyncState.active)

/-- One turn over the results: all that have arrived are taken, and each moves
    `next_process_idx` on, whatever it says. -/
def handle_results : NetProcessor :=
  if self.block_result_rx.isEmpty then self
  else
    let done := self.block_result_rx.any (·.batch_done)
    let self := { self with
      next_process_idx := self.next_process_idx + self.block_result_rx.length
      block_result_rx := [] }
    if done then { self with block_processing := false }.try_start_next_block world else self

/-- A blocking task processes its next block and sends the result; after a failure or its last
    block it ends. -/
def work (task : Nat) : NetProcessor :=
  match self.tasks[task]? with
  | some ⟨next_idx, (hash, peer_id, data) :: rest⟩ =>
    let verdict := world.node.process_block data
    let batch_done := rest.isEmpty || !verdict.is_ok
    { self with
      calls := self.calls ++ [.ordered next_idx data verdict]
      block_result_rx := self.block_result_rx ++ [⟨hash, peer_id, next_idx + 1, verdict.result, batch_done⟩]
      tasks := if batch_done then self.tasks.eraseIdx task else self.tasks.set task ⟨next_idx + 1, rest⟩ }
  | _ => self

def turn (hash256 : List UInt8 → Uint256) : Event → NetProcessor
  | .HandshakeComplete peer_id => self.handshake_complete peer_id
  | .MessageReceived peer_id message => self.handle_message world hash256 peer_id message
  | .Disconnected peer_id => self.disconnected world peer_id
  | .block_result => self.handle_results world
  | .tick => (self.check_stalled_peers world).try_start_next_block world

/-- The next step. A blocking task goes on when the loop is gone. -/
def step (hash256 : List UInt8 → Uint256) : Action → NetProcessor
  | .wake event => if self.halted then self else self.turn world hash256 event
  | .work task => self.work world task

/-- The processor after some actions, in any order. -/
def run (hash256 : List UInt8 → Uint256) (now : Instant) (actions : List (World × Action)) : NetProcessor :=
  actions.foldl (fun self action => self.step action.1 hash256 action.2) (new now)

/-- The batches that are not over: those still at work, and those whose last result has not
    been taken from the channel. -/
def outstanding : Nat := self.tasks.length + self.block_result_rx.countP (·.batch_done)

/-- The `header_chain` indices that batches have handed to `process_block`, in their order. -/
def handed : List Nat := self.calls.filterMap Call.idx

end NetProcessor

end qubitcoin.net_processing
