import Qubitcoin.Lib.Trace
import Qubitcoin.Net.Batches

/-! The buffer of blocks: which blocks of the header chain it can hold. -/

open qubitcoin.primitives transition

namespace qubitcoin.net_processing

namespace NetProcessor

/-- The blocks of the batches that are at work. -/
def in_work (self : NetProcessor) : Nat := (self.tasks.map fun batch => batch.blocks.length).sum

/-- The number of indices, from the start of the header chain, that are behind the batches or
    in one of them. -/
def taken (self : NetProcessor) : Nat := self.reached + self.in_work

/-- A block that stands in the header chain, and nowhere before `idx`. -/
def Awaited (header_chain : List BlockHash) (idx : Nat) (hash : BlockHash) : Prop :=
  hash ∈ header_chain ∧ ∀ i, header_chain[i]? = some hash → idx ≤ i

/-- The buffered blocks are in the header chain, ahead of all that is processed or at work. -/
def Ahead (self : NetProcessor) : Prop := ∀ hash ∈ self.pending_blocks, Awaited self.header_chain self.taken hash

/-- A headers message moves `next_process_idx` to the height of the node. -/
def Forwards (self : NetProcessor) (world : World) (headers : List (List UInt8)) : Prop :=
  headers.length ≠ 0 ∧ headers.length ≤ MAX_HEADERS_RESULTS ∧ self.next_process_idx = 0 ∧
    (max world.node.chain_height 0).toNat > 0 ∧ self.block_processing = false

/-- The condition on what arrives: a block that is buffered is one of the header chain, of no index that is processed
    or at work, and when the processor is moved forward no buffered block is left behind. -/
def Fresh (hash256 : List UInt8 → Uint256) (self : NetProcessor) (action : World × Action) : Prop :=
  match action.2 with
  | .wake (.MessageReceived _ (.Block data)) =>
    80 ≤ data.length → hash256 (data.take 80) ∈ self.header_set ∨ self.next_process_idx < self.header_chain.length →
      Awaited self.header_chain self.taken (hash256 (data.take 80))
  | .wake (.MessageReceived _ (.Headers headers)) =>
    self.Forwards action.1 headers → ∀ hash ∈ self.pending_blocks,
      Awaited self.header_chain (max action.1.node.chain_height 0).toNat hash
  | _ => True

variable {hash256 : List UInt8 → Uint256} {self after : NetProcessor} {world : World}

theorem Awaited.mono {header_chain : List BlockHash} {idx lower : Nat} {hash : BlockHash}
    (hawaited : Awaited header_chain idx hash) (hlower : lower ≤ idx) : Awaited header_chain lower hash :=
  ⟨hawaited.1, fun i hget => hlower.trans (hawaited.2 i hget)⟩

theorem Awaited.push {header_chain : List BlockHash} {idx : Nat} {hash : BlockHash}
    (hawaited : Awaited header_chain idx hash) (new : BlockHash) : Awaited (header_chain ++ [new]) idx hash := by
  obtain ⟨hmem, hahead⟩ := hawaited
  refine ⟨List.mem_append_left _ hmem, fun i hget => ?_⟩
  by_cases hlt : i < header_chain.length
  · rw [List.getElem?_append_left hlt] at hget
    exact hahead i hget
  · obtain ⟨first, hfirst⟩ := List.mem_iff_getElem?.mp hmem
    have hle := hahead first hfirst
    have hinside := (List.getElem?_eq_some_iff.mp hfirst).1
    omega

theorem take_batch_left {header_chain : List BlockHash} (limit : Nat) :
    ∀ {idx : Nat} {pending : HashMap BlockHash (Nat × List UInt8)} {hash : BlockHash},
      hash ∈ (take_batch limit (header_chain.drop idx) pending).2 → hash ∈ pending ∧
        ∀ i, header_chain[i]? = some hash → idx ≤ i →
          idx + (take_batch limit (header_chain.drop idx) pending).1.length ≤ i := by
  induction limit with
  | zero => exact fun {idx pending hash} hmem => ⟨hmem, fun i _ hle => hle⟩
  | succ limit ih =>
    intro idx pending hash hmem
    cases hdrop : header_chain.drop idx with
    | nil =>
      rw [hdrop] at hmem
      exact ⟨hmem, fun i _ hle => hle⟩
    | cons head hashes =>
      have hhead : header_chain[idx]? = some head := by
        rw [← List.head?_drop, hdrop, List.head?_cons]
      have htail : hashes = header_chain.drop (idx + 1) := by
        rw [← List.tail_drop, hdrop, List.tail_cons]
      rw [hdrop, take_batch] at hmem
      rw [take_batch]
      split
      · next hlookup =>
        rw [hlookup] at hmem
        exact ⟨hmem, fun i _ hle => hle⟩
      · next peer_id data hlookup =>
        rw [hlookup, htail] at hmem
        rw [htail]
        obtain ⟨herased, hbehind⟩ := ih hmem
        obtain ⟨hne, hbuffered⟩ := AList.mem_erase.mp herased
        dsimp only
        rw [List.length_cons]
        refine ⟨hbuffered, fun i hget hle => ?_⟩
        have hlater : idx ≠ i := by
          rintro rfl
          rw [hhead] at hget
          exact hne (Option.some.inj hget).symm
        have hend := hbehind i hget (by omega)
        omega

namespace Ahead

theorem new (now : Instant) : Ahead (NetProcessor.new now) := fun hash hmem => absurd hmem (AList.notMem_empty hash)

theorem of_core (hahead : Ahead self) (hcore : after.core = self.core) : Ahead after := by
  have hsame : Ahead after.core := by
    rw [hcore]
    exact hahead
  exact hsame

theorem spawn_batch (hahead : Ahead self) (hidle : self.tasks = [] ∧ self.block_result_rx = []) :
    Ahead self.spawn_batch := by
  have hbefore : self.taken = self.next_process_idx := by
    rw [taken, reached, in_work, hidle.1, hidle.2]
    rfl
  have hafter : self.spawn_batch.taken = self.next_process_idx + self.batch.length := by
    rw [taken, reached, in_work, NetProcessor.spawn_batch, hidle.1, hidle.2]
    simp
  intro hash hmem
  obtain ⟨hbuffered, hbehind⟩ := take_batch_left 500 hmem
  have hawaited := hahead hash hbuffered
  rw [hbefore] at hawaited
  rw [hafter]
  exact ⟨hawaited.1, fun i hget => hbehind i hget (hawaited.2 i hget)⟩

theorem quiet (hinv : InOrder hash256 self) (hflag : self.block_processing = false) :
    self.tasks = [] ∧ self.block_result_rx = [] := by
  cases hinv.phase with
  | idle _ htasks hrx => exact ⟨htasks, hrx⟩
  | running _ hbusy => rw [hflag] at hbusy; cases hbusy
  | finished _ _ hbusy => rw [hflag] at hbusy; cases hbusy

theorem try_start_next_block (hahead : Ahead self)
    (hquiet : self.block_processing = false → self.tasks = [] ∧ self.block_result_rx = []) :
    Ahead (self.try_start_next_block world) := by
  unfold NetProcessor.try_start_next_block
  split
  · exact hahead
  · next hidle =>
    split
    · exact hahead
    · split
      · exact hahead.of_core (core_recover_head self world _)
      · exact hahead.spawn_batch (hquiet (by simpa using hidle))

theorem check_stalled_peers (hahead : Ahead self) (hinv : InOrder hash256 self) :
    Ahead (self.check_stalled_peers world) := by
  unfold NetProcessor.check_stalled_peers
  have hcore := core_foldl self core_drop_stalled (self.peers_with world (stalled world))
  have hdropped := hahead.of_core hcore
  have hstalled : Ahead ((((self.peers_with world (stalled world)).foldl drop_stalled self)).check_head_of_line_stall
      world) := by
    unfold NetProcessor.check_head_of_line_stall
    split
    · exact hdropped
    · split
      · exact hdropped
      · split
        · exact hdropped.try_start_next_block (quiet (hinv.of_core hcore))
        · exact hdropped.of_core (core_recover_head _ world _)
  refine hstalled.of_core ?_
  rw [core_reconnect, core_kick_idle_peers]

theorem work (hahead : Ahead self) (hinv : InOrder hash256 self) (task : Nat) : Ahead (self.work world task) := by
  have hkept : ∀ {after : NetProcessor}, after.header_chain = self.header_chain →
      after.pending_blocks = self.pending_blocks → after.taken ≤ self.taken → Ahead after := by
    intro after hchain hpending htaken hash hmem
    rw [hpending] at hmem
    rw [hchain]
    exact (hahead hash hmem).mono htaken
  unfold NetProcessor.work
  split
  · next next_idx hash peer_id data rest htask =>
    refine hkept rfl rfl ?_
    cases hinv.phase with
    | idle _ htasks => rw [htasks] at htask; cases htask
    | finished _ _ _ htasks => rw [htasks] at htask; cases htask
    | running batch _ htasks _ _ _ _ =>
      obtain ⟨rfl, rfl⟩ : task = 0 ∧ batch = ⟨next_idx, (hash, peer_id, data) :: rest⟩ := by
        rw [htasks] at htask
        cases task with
        | zero => exact ⟨rfl, Option.some.inj htask⟩
        | succ task => cases htask
      simp only [taken, reached, in_work, htasks, List.length_append, List.length_singleton]
      split <;> simp <;> omega
  · exact hahead

theorem handle_results (hahead : Ahead self) (hinv : InOrder hash256 self) : Ahead (self.handle_results world) := by
  have htaken : ∀ flag, Ahead { self with
      next_process_idx := self.next_process_idx + self.block_result_rx.length
      block_result_rx := [], block_processing := flag } :=
    fun flag hash hmem => hahead hash hmem
  unfold NetProcessor.handle_results
  split
  · exact hahead
  · dsimp only
    split
    · next hdone =>
      refine (htaken false).try_start_next_block fun _ => ⟨?_, rfl⟩
      -- A result that says so has ended the batch.
      cases hinv.phase with
      | idle _ htasks => exact htasks
      | finished _ _ _ htasks => exact htasks
      | running _ _ _ _ _ _ hopen =>
        obtain ⟨result, hmem, hlast⟩ := List.any_eq_true.mp hdone
        rw [hopen result hmem] at hlast
        cases hlast
    · exact htaken self.block_processing

theorem buffer (hahead : Ahead self) {hash : BlockHash} (entry : Nat × List UInt8)
    (hawaited : Awaited self.header_chain self.taken hash) :
    Ahead { self with pending_blocks := self.pending_blocks.insert hash entry } := by
  intro other hmem
  rcases (AList.mem_insert _).mp hmem with rfl | hold
  · exact hawaited
  · exact hahead other hold

theorem process_directly (hahead : Ahead self) (peer_id : Nat) (data : List UInt8) :
    Ahead (self.process_directly world peer_id data) := by
  have hcalled : Ahead { self with calls := self.calls ++ [.direct data (world.node.process_block data)] } := hahead
  unfold NetProcessor.process_directly
  dsimp only
  split
  · exact hcalled
  · split
    · exact hcalled
    · exact hcalled.of_core (core_misbehaving _ peer_id)
  · exact hcalled

theorem handle_block (hahead : Ahead self) (hinv : InOrder hash256 self) (peer_id : Nat) {data : List UInt8}
    (hfresh : 80 ≤ data.length →
      hash256 (data.take 80) ∈ self.header_set ∨ self.next_process_idx < self.header_chain.length →
        Awaited self.header_chain self.taken (hash256 (data.take 80))) :
    Ahead (self.handle_block world hash256 peer_id data) := by
  unfold NetProcessor.handle_block
  split
  · next hlength =>
    have hcore := core_mark_downloaded self world peer_id (hash256 (data.take 80))
    have hmarked := hahead.of_core hcore
    have hquiet := quiet (hinv.of_core hcore)
    have hchain := congrArg NetProcessor.header_chain hcore
    have hset := congrArg NetProcessor.header_set hcore
    have hidx := congrArg NetProcessor.next_process_idx hcore
    have htaken := congrArg taken hcore
    dsimp only
    generalize self.mark_downloaded world peer_id (hash256 (data.take 80)) = marked at *
    change marked.header_chain = self.header_chain at hchain
    change marked.header_set = self.header_set at hset
    change marked.next_process_idx = self.next_process_idx at hidx
    change marked.taken = self.taken at htaken
    split
    · next hbuffer =>
      rw [hset, hidx, hchain] at hbuffer
      have hawaited := hfresh hlength hbuffer
      rw [← hchain, ← htaken] at hawaited
      exact (hmarked.buffer (peer_id, data) hawaited).try_start_next_block fun hflag => hquiet hflag
    · exact hmarked.process_directly peer_id data
  · exact hahead.process_directly peer_id data

theorem push_header_fields (self : NetProcessor) (tip_height_skip : Nat) (hash : BlockHash) :
    (self.push_header tip_height_skip hash).pending_blocks = self.pending_blocks ∧
      (self.push_header tip_height_skip hash).header_chain = self.header_chain ++ [hash] ∧
      (self.push_header tip_height_skip hash).taken = self.taken := by
  unfold NetProcessor.push_header
  dsimp only
  split <;> exact ⟨rfl, rfl, rfl⟩

theorem accept_results (tip_height_skip : Nat) (results : List (Except String Bool × BlockHash)) (hahead : Ahead self) :
    Ahead (NetProcessor.accept_results tip_height_skip results self).2 := by
  induction results generalizing self with
  | nil => exact hahead
  | cons result rest ih =>
    obtain ⟨answer, hash⟩ := result
    cases answer with
    | ok _ =>
      obtain ⟨hpending, hchain, htaken⟩ := push_header_fields self tip_height_skip hash
      rw [NetProcessor.accept_results]
      refine ih fun other hother => ?_
      rw [hpending] at hother
      rw [hchain, htaken]
      exact (hahead other hother).push hash
    | error _ => exact hahead

theorem fast_forward (hahead : Ahead self) (hinv : InOrder hash256 self) {tip_height_skip : Nat}
    (hforward : self.next_process_idx = 0 → tip_height_skip > 0 → self.block_processing = false →
      ∀ hash ∈ self.pending_blocks, Awaited self.header_chain tip_height_skip hash) :
    Ahead (self.fast_forward tip_height_skip) := by
  unfold NetProcessor.fast_forward
  split
  · next hmoves =>
    obtain ⟨hzero, htip, hflag⟩ := hmoves
    have hidle : self.block_processing = false := by simpa using hflag
    obtain ⟨htasks, hrx⟩ := quiet hinv hidle
    intro hash hmem
    rw [taken, reached, in_work, htasks, hrx]
    exact hforward hzero htip hidle hash hmem
  · exact hahead

theorem handle_headers (hahead : Ahead self) (hinv : InOrder hash256 self) (peer_id : Nat) {headers : List (List UInt8)}
    (hforward : self.Forwards world headers → ∀ hash ∈ self.pending_blocks,
      Awaited self.header_chain (max world.node.chain_height 0).toNat hash) :
    Ahead (self.handle_headers world hash256 peer_id headers) := by
  unfold NetProcessor.handle_headers
  split
  · split
    · exact hahead
    · exact hahead.of_core (core_start_block_download self world)
  · next hsome =>
    split
    · exact hahead.of_core (core_misbehaving self peer_id)
    · next hfew =>
      have hforwarded := hahead.fast_forward hinv fun hzero htip hidle =>
        hforward ⟨hsome, Nat.le_of_not_lt hfew, hzero, htip, hidle⟩
      dsimp only
      generalize hnew : new_headers hash256 headers _ = new at *
      have haccepted : Ahead (NetProcessor.accept_results (max world.node.chain_height 0).toNat
          ((world.node.accept_block_headers_batch (new.2.map (·.2))).zip (new.2.map (·.1)))
          { self.fast_forward (max world.node.chain_height 0).toNat with header_set := new.1 }).2 :=
        accept_results _ _ hforwarded
      split
      · next hresult =>
        rw [hresult] at haccepted
        exact haccepted.of_core (core_misbehaving _ peer_id)
      · next hresult =>
        rw [hresult] at haccepted
        refine haccepted.of_core ?_
        split <;> split <;> first | rfl | simp only [core_start_block_download] <;> rfl

theorem turn (hahead : Ahead self) (hinv : InOrder hash256 self) {event : Event}
    (hfresh : Fresh hash256 self (world, .wake event)) : Ahead (self.turn world hash256 event) := by
  cases event with
  | HandshakeComplete peer_id => exact hahead
  | MessageReceived peer_id message =>
    cases message with
    | Headers headers => exact hahead.handle_headers hinv peer_id hfresh
    | Block data => exact hahead.handle_block hinv peer_id hfresh
    | Inv inv | GetData inv =>
      rw [NetProcessor.turn, handle_message, handle_inv]
      split
      · exact hahead.of_core (core_misbehaving self peer_id)
      · exact hahead
    | FeeFilter fee =>
      rw [NetProcessor.turn, handle_message]
      split
      · exact hahead
      · exact hahead.of_core (core_misbehaving self peer_id)
    | NotFound inv => exact hahead.of_core (core_update_peer self peer_id _)
    | other => exact hahead
  | Disconnected peer_id => exact hahead.of_core (core_disconnected self world peer_id)
  | block_result => exact hahead.handle_results hinv
  | tick => exact (hahead.check_stalled_peers hinv).try_start_next_block (quiet (hinv.check_stalled_peers))

theorem step (hahead : Ahead self) (hinv : InOrder hash256 self) {action : World × Action}
    (hfresh : Fresh hash256 self action) : Ahead (self.step action.1 hash256 action.2) := by
  obtain ⟨world, action⟩ := action
  cases action with
  | wake event =>
    rw [NetProcessor.step]
    split
    · exact hahead
    · exact hahead.turn hinv hfresh
  | work task => exact hahead.work hinv task

end Ahead

/-- While only fresh blocks arrive, every buffered block stands in the header chain, and only where it is still to be
    processed. So the buffer is empty when all known headers are processed, and it never holds more blocks than
    there are known headers left: it gets to the limit of `request_blocks` by blocks to come alone. -/
theorem buffer_holds_blocks_ahead (hash256 : List UInt8 → Uint256) (now : Instant) (actions : List (World × Action))
    (hfresh : Allowed (Fresh hash256) (fun self action => self.step action.1 hash256 action.2) (new now) actions) :
    (∀ hash ∈ (run hash256 now actions).pending_blocks, hash ∈ (run hash256 now actions).header_chain ∧
      ∀ i, (run hash256 now actions).header_chain[i]? = some hash → (run hash256 now actions).next_process_idx ≤ i) ∧
    ((run hash256 now actions).header_chain.length ≤ (run hash256 now actions).next_process_idx →
      (run hash256 now actions).pending_blocks = ∅) ∧
    (run hash256 now actions).pending_blocks.entries.length ≤
      (run hash256 now actions).header_chain.length - (run hash256 now actions).next_process_idx := by
  have hinv : InOrder hash256 (run hash256 now actions) ∧ Ahead (run hash256 now actions) := by
    refine hfresh.trace.invariant (fun self => InOrder hash256 self ∧ Ahead self) ?_ ⟨.new now, .new now⟩
    rintro self action next ⟨hinv, hahead⟩ ⟨hnext, rfl⟩
    exact ⟨hinv.step action.2, hahead.step hinv hnext⟩
  have hbehind : ∀ hash ∈ (run hash256 now actions).pending_blocks, hash ∈ (run hash256 now actions).header_chain ∧
      ∀ i, (run hash256 now actions).header_chain[i]? = some hash → (run hash256 now actions).next_process_idx ≤ i := by
    intro hash hmem
    obtain ⟨hchain, htaken⟩ := hinv.2 hash hmem
    refine ⟨hchain, fun i hget => ?_⟩
    have hle := htaken i hget
    rw [taken, reached] at hle
    omega
  have hcount : (run hash256 now actions).pending_blocks.entries.length ≤
      (run hash256 now actions).header_chain.length - (run hash256 now actions).next_process_idx := by
    have hleft : (run hash256 now actions).pending_blocks.keys ⊆
        (run hash256 now actions).header_chain.drop (run hash256 now actions).next_process_idx := by
      intro hash hmem
      obtain ⟨hchain, hahead⟩ := hbehind hash (AList.mem_keys.mp hmem)
      obtain ⟨i, hget⟩ := List.mem_iff_getElem?.mp hchain
      obtain ⟨later, rfl⟩ := Nat.exists_eq_add_of_le (hahead i hget)
      exact List.mem_iff_getElem?.mpr ⟨later, by rw [List.getElem?_drop, hget]⟩
    have hle := (List.subperm_of_subset (run hash256 now actions).pending_blocks.keys_nodup hleft).length_le
    rw [List.length_drop] at hle
    exact (Nat.le_of_eq (List.length_map _).symm).trans hle
  refine ⟨hbehind, fun hall => ?_, hcount⟩
  rw [Nat.sub_eq_zero_of_le hall, Nat.le_zero, List.length_eq_zero_iff] at hcount
  exact AList.ext hcount

/-- Two headers, the later block before the earlier one, and both through the threadpool. -/
def two_deliveries : List (World × Action) :=
  [(accepting_world, .wake (.HandshakeComplete 1)),
    (accepting_world, .wake (.MessageReceived 1 (.Headers [List.replicate 80 0, List.replicate 80 1]))),
    (accepting_world, .wake (.MessageReceived 1 (.Block (List.replicate 81 1)))),
    (accepting_world, .wake (.MessageReceived 1 (.Block (List.replicate 81 0)))),
    (accepting_world, .work 0), (accepting_world, .wake .block_result),
    (accepting_world, .work 0), (accepting_world, .wake .block_result)]

set_option maxRecDepth 2000 in
theorem buffer_ahead_later_block :
    Allowed (Fresh crypto.sha256d) (fun self action => self.step action.1 crypto.sha256d action.2) (new 0) two_deliveries ∧
      (run crypto.sha256d 0 (two_deliveries.take 3)).pending_blocks.keys = [crypto.sha256d (List.replicate 80 1)] ∧
      (run crypto.sha256d 0 two_deliveries).next_process_idx = 2 ∧
      (run crypto.sha256d 0 two_deliveries).pending_blocks = ∅ := by
  have hnoforward : ∀ (self : NetProcessor) headers, ¬ self.Forwards accepting_world headers :=
    fun self headers hforwards => absurd hforwards.2.2.2.1 (by decide)
  have hheaders : (run crypto.sha256d 0 (two_deliveries.take 2)).taken = 0 ∧
      crypto.sha256d (List.replicate 80 1) ∈ (run crypto.sha256d 0 (two_deliveries.take 2)).header_chain := by
    decide +kernel
  have hbuffered : (run crypto.sha256d 0 (two_deliveries.take 3)).taken = 0 ∧
      crypto.sha256d (List.replicate 80 0) ∈ (run crypto.sha256d 0 (two_deliveries.take 3)).header_chain := by
    decide +kernel
  have heval : (run crypto.sha256d 0 (two_deliveries.take 3)).pending_blocks.keys = [crypto.sha256d (List.replicate 80 1)] ∧
      (run crypto.sha256d 0 two_deliveries).next_process_idx = 2 ∧
      (run crypto.sha256d 0 two_deliveries).header_chain.length = 2 := by
    decide +kernel
  have hblock : ∀ (byte : UInt8) (self : NetProcessor), self.taken = 0 →
      crypto.sha256d (List.replicate 80 byte) ∈ self.header_chain →
      Fresh crypto.sha256d self (accepting_world, .wake (.MessageReceived 1 (.Block (List.replicate 81 byte)))) := by
    intro byte self htaken hmem _ _
    exact ⟨hmem, fun i _ => (Nat.le_of_eq htaken).trans (Nat.zero_le i)⟩
  have hfresh : Allowed (Fresh crypto.sha256d) (fun self action => self.step action.1 crypto.sha256d action.2) (new 0)
      two_deliveries :=
    ⟨trivial, fun hforwards => absurd hforwards (hnoforward _ _), hblock 1 _ hheaders.1 hheaders.2,
      hblock 0 _ hbuffered.1 hbuffered.2, trivial, trivial, trivial, trivial, trivial⟩
  exact ⟨hfresh, heval.1, heval.2.1, (buffer_holds_blocks_ahead crypto.sha256d 0 two_deliveries hfresh).2.1 (by omega)⟩

/-- The first delivery goes through the threadpool. -/
def processed_delivery : List (World × Action) :=
  zero_delivery ++ [(accepting_world, .work 0), (accepting_world, .wake .block_result)]

/-- The block arrives from a second peer after it was processed, and stays in the buffer. -/
theorem stale_block_buffered :
    (run crypto.sha256d 0 (processed_delivery ++
        [(accepting_world, .wake (.MessageReceived 2 (.Block (List.replicate 81 0))))])).next_process_idx = 1 ∧
      (run crypto.sha256d 0 (processed_delivery ++
        [(accepting_world, .wake (.MessageReceived 2 (.Block (List.replicate 81 0))))])).header_chain[0]? =
          some (crypto.sha256d (List.replicate 80 0)) ∧
      crypto.sha256d (List.replicate 80 0) ∈ (run crypto.sha256d 0 (processed_delivery ++
        [(accepting_world, .wake (.MessageReceived 2 (.Block (List.replicate 81 0))))])).pending_blocks := by
  decide +kernel

end NetProcessor

end qubitcoin.net_processing
