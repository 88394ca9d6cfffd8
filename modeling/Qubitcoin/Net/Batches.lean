import Qubitcoin.Crypto.Sha256
import Qubitcoin.Net.Processor

/-! The order of the batches: one at a time, and each goes on in the header chain where the
    one before it has ended. -/

open qubitcoin.primitives

namespace qubitcoin.net_processing

namespace NetProcessor

/-- The processor without its download bookkeeping: the queue, the set of downloaded blocks and
    the peers. -/
def core (self : NetProcessor) : NetProcessor :=
  { self with
    blocks_to_download := [], blocks_downloaded := ∅, peer_states := ∅, last_reconnect_attempt := 0
    block_download_started := false }

section

variable (self : NetProcessor) (world : World)

theorem core_foldl {A : Type} {f : NetProcessor → A → NetProcessor} (hcore : ∀ self a, (f self a).core = self.core)
    (l : List A) : (l.foldl f self).core = self.core := by
  induction l generalizing self with
  | nil => rfl
  | cons a l ih => rw [List.foldl_cons, ih, hcore]

@[simp] theorem core_update_peer (peer_id : Nat) (f : PeerSyncState → PeerSyncState) :
    (self.update_peer peer_id f).core = self.core := by
  unfold update_peer
  split <;> rfl

@[simp] theorem core_request_blocks (peer_id : Nat) : (self.request_blocks world peer_id).core = self.core := by
  unfold request_blocks
  split
  · rfl
  · split
    · rfl
    · split <;> rfl

@[simp] theorem core_request_from (peer_ids : List Nat) : (self.request_from world peer_ids).core = self.core :=
  core_foldl self (fun self peer_id => core_request_blocks self world peer_id) peer_ids

@[simp] theorem core_start_block_download : (self.start_block_download world).core = self.core :=
  core_request_from self world _

@[simp] theorem core_misbehaving (peer_id : Nat) : (self.misbehaving peer_id).core = self.core :=
  core_update_peer self peer_id _

@[simp] theorem core_direct_request (hash : BlockHash) (peer_ids : List Nat) :
    (self.direct_request world hash peer_ids).core = self.core :=
  core_foldl self (fun self peer_id => core_update_peer self peer_id _) peer_ids

@[simp] theorem core_requeue_lost (head_hash : BlockHash) : (self.requeue_lost head_hash).core = self.core := by
  unfold requeue_lost
  split <;> rfl

@[simp] theorem core_redistribute (slow_pid : Nat) : (self.redistribute world slow_pid).core = self.core := by
  unfold redistribute
  dsimp only
  split
  · exact core_update_peer self slow_pid _
  · rw [core_request_from]
    exact core_update_peer self slow_pid _

@[simp] theorem core_steal (head_hash : BlockHash) (slow_pid : Nat) :
    (self.steal world head_hash slow_pid).core = self.core := by
  unfold steal
  dsimp only
  split
  · rw [core_request_blocks]
    exact core_update_peer self slow_pid _
  · rw [core_request_blocks, core_direct_request, core_update_peer]

@[simp] theorem core_recover_head (head_hash : BlockHash) : (self.recover_head world head_hash).core = self.core := by
  unfold recover_head
  dsimp only
  split
  · rw [core_direct_request, core_requeue_lost]
  · split
    · split <;> simp
    · exact core_requeue_lost self head_hash

@[simp] theorem core_kick_idle_peers : (self.kick_idle_peers world).core = self.core := by
  unfold kick_idle_peers
  split
  · rfl
  · exact core_request_from self world _

theorem core_drop_stalled (peer_id : Nat) : (self.drop_stalled peer_id).core = self.core := by
  unfold drop_stalled
  split <;> rfl

@[simp] theorem core_reconnect : (self.reconnect world).core = self.core := by
  unfold reconnect
  split <;> rfl

@[simp] theorem core_mark_downloaded (peer_id : Nat) (hash : BlockHash) :
    (self.mark_downloaded world peer_id hash).core = self.core := by
  unfold mark_downloaded
  rw [core_request_blocks, core_update_peer]
  rfl

@[simp] theorem core_disconnected (peer_id : Nat) : (self.disconnected world peer_id).core = self.core := by
  unfold disconnected
  dsimp only
  split
  · rfl
  · rw [core_request_from]
    rfl

end

/-- The number of indices, from the start of the header chain, that are behind the batches:
    each result in the channel stands for one more than `next_process_idx`. -/
def reached (self : NetProcessor) : Nat := self.next_process_idx + self.block_result_rx.length

variable (hash256 : List UInt8 → Uint256)

/-- A payload whose header is the one at an index of the header chain. -/
def Names (header_chain : List BlockHash) (idx : Nat) (data : List UInt8) : Prop :=
  80 ≤ data.length ∧ header_chain[idx]? = some (hash256 (data.take 80))

/-- Blocks for consecutive indices of the header chain. -/
def Carries (header_chain : List BlockHash) : Nat → List (BlockHash × Nat × List UInt8) → Prop
  | _, [] => True
  | idx, block :: rest => Names hash256 header_chain idx block.2.2 ∧ Carries header_chain (idx + 1) rest

/-- Every payload of the buffer is kept under the hash of its header. -/
def Keyed (pending : HashMap BlockHash (Nat × List UInt8)) : Prop :=
  ∀ hash peer_id data, pending.lookup hash = some (peer_id, data) →
    80 ≤ data.length ∧ hash256 (data.take 80) = hash

/-- Where the batch is: there is none, it is at work, or only its results are left. Its last
    result, and no other, says that it is done. -/
inductive Phase (processor : NetProcessor) : Prop where
  | idle (hflag : processor.block_processing = false) (htasks : processor.tasks = []) (hrx : processor.block_result_rx = [])
  | running (batch : Batch) (hflag : processor.block_processing = true) (htasks : processor.tasks = [batch])
      (hidx : batch.next_idx = processor.reached) (hblocks : batch.blocks ≠ [])
      (hcarries : Carries hash256 processor.header_chain batch.next_idx batch.blocks)
      (hopen : ∀ result ∈ processor.block_result_rx, result.batch_done = false)
  | finished (sent : List BlockProcessResult) (last : BlockProcessResult) (hflag : processor.block_processing = true)
      (htasks : processor.tasks = []) (hrx : processor.block_result_rx = sent ++ [last]) (hlast : last.batch_done = true)
      (hopen : ∀ result ∈ sent, result.batch_done = false)

/-- The indices handed over so far are all those from the fast-forward up to the point reached,
    in their order, each with a payload for its header. -/
structure InOrder (processor : NetProcessor) : Prop where
  keyed : Keyed hash256 processor.pending_blocks
  initial : processor.initial_idx ≤ processor.next_process_idx
  handed : processor.handed = List.range' processor.initial_idx (processor.reached - processor.initial_idx)
  named : ∀ idx data verdict, Call.ordered idx data verdict ∈ processor.calls → Names hash256 processor.header_chain idx data
  phase : Phase hash256 processor

variable {hash256} {self after : NetProcessor} {world : World}

theorem Names.append {header_chain : List BlockHash} {idx : Nat} {data : List UInt8}
    (hnames : Names hash256 header_chain idx data) (more : List BlockHash) :
    Names hash256 (header_chain ++ more) idx data := by
  refine ⟨hnames.1, ?_⟩
  rw [List.getElem?_append_left (List.getElem?_eq_some_iff.mp hnames.2).1]
  exact hnames.2

theorem Carries.append {header_chain : List BlockHash} {idx : Nat} {blocks : List (BlockHash × Nat × List UInt8)}
    (hcarries : Carries hash256 header_chain idx blocks) (more : List BlockHash) :
    Carries hash256 (header_chain ++ more) idx blocks := by
  induction blocks generalizing idx with
  | nil => trivial
  | cons block rest ih => exact ⟨hcarries.1.append more, ih hcarries.2⟩

theorem Keyed.erase {pending : HashMap BlockHash (Nat × List UInt8)} (hkeyed : Keyed hash256 pending) (key : BlockHash) :
    Keyed hash256 (pending.erase key) := by
  intro hash peer_id data hlookup
  by_cases heq : hash = key
  · rw [heq, AList.lookup_erase] at hlookup
    cases hlookup
  · rw [AList.lookup_erase_ne heq] at hlookup
    exact hkeyed hash peer_id data hlookup

theorem Keyed.insert {pending : HashMap BlockHash (Nat × List UInt8)} (hkeyed : Keyed hash256 pending) (peer_id : Nat)
    {data : List UInt8} (hlength : 80 ≤ data.length) :
    Keyed hash256 (pending.insert (hash256 (data.take 80)) (peer_id, data)) := by
  intro hash other found hlookup
  by_cases heq : hash = hash256 (data.take 80)
  · rw [heq, AList.lookup_insert] at hlookup
    cases hlookup
    exact ⟨hlength, heq.symm⟩
  · rw [AList.lookup_insert_ne heq] at hlookup
    exact hkeyed hash other found hlookup

theorem take_batch_carries {header_chain : List BlockHash} (limit : Nat) :
    ∀ {idx : Nat} {pending : HashMap BlockHash (Nat × List UInt8)}, Keyed hash256 pending →
      Carries hash256 header_chain idx (take_batch limit (header_chain.drop idx) pending).1 ∧
        Keyed hash256 (take_batch limit (header_chain.drop idx) pending).2 := by
  induction limit with
  | zero => exact fun hkeyed => ⟨trivial, hkeyed⟩
  | succ limit ih =>
    intro idx pending hkeyed
    cases hdrop : header_chain.drop idx with
    | nil => exact ⟨trivial, hkeyed⟩
    | cons hash hashes =>
      have hhead : header_chain[idx]? = some hash := by
        rw [← List.head?_drop, hdrop, List.head?_cons]
      have htail : hashes = header_chain.drop (idx + 1) := by
        rw [← List.tail_drop, hdrop, List.tail_cons]
      rw [take_batch]
      split
      · exact ⟨trivial, hkeyed⟩
      · next peer_id data hlookup =>
        obtain ⟨hlength, hhash⟩ := hkeyed hash peer_id data hlookup
        rw [htail]
        obtain ⟨hcarries, hleft⟩ := @ih (idx + 1) _ (hkeyed.erase hash)
        exact ⟨⟨⟨hlength, by rw [hhash, hhead]⟩, hcarries⟩, hleft⟩

theorem Phase.congr (hphase : Phase hash256 self) {more : List BlockHash}
    (hflag : after.block_processing = self.block_processing) (htasks : after.tasks = self.tasks)
    (hrx : after.block_result_rx = self.block_result_rx) (hidx : after.next_process_idx = self.next_process_idx)
    (hchain : after.header_chain = self.header_chain ++ more) : Phase hash256 after := by
  cases hphase with
  | idle h₁ h₂ h₃ => exact .idle (hflag.trans h₁) (htasks.trans h₂) (hrx.trans h₃)
  | running batch h₁ h₂ h₃ hblocks hcarries hopen =>
    have hreached : after.reached = self.reached := by rw [reached, reached, hidx, hrx]
    refine .running batch (hflag.trans h₁) (htasks.trans h₂) (h₃.trans hreached.symm) hblocks ?_ ?_
    · rw [hchain]
      exact hcarries.append more
    · rw [hrx]
      exact hopen
  | finished sent last h₁ h₂ h₃ hlast hopen =>
    exact .finished sent last (hflag.trans h₁) (htasks.trans h₂) (hrx.trans h₃) hlast hopen

theorem in_order_core_iff : InOrder hash256 self.core ↔ InOrder hash256 self :=
  ⟨fun hinv => ⟨hinv.keyed, hinv.initial, hinv.handed, hinv.named,
      hinv.phase.congr rfl rfl rfl rfl (List.append_nil _).symm⟩,
    fun hinv => ⟨hinv.keyed, hinv.initial, hinv.handed, hinv.named,
      hinv.phase.congr rfl rfl rfl rfl (List.append_nil _).symm⟩⟩

namespace InOrder

theorem of_core (hinv : InOrder hash256 self) (hcore : after.core = self.core) : InOrder hash256 after := by
  rw [← in_order_core_iff, hcore, in_order_core_iff]
  exact hinv

theorem new (now : Instant) : InOrder hash256 (NetProcessor.new now) where
  keyed _ _ _ hlookup := nomatch hlookup
  initial := Nat.le_refl 0
  handed := rfl
  named _ _ _ hmem := nomatch hmem
  phase := .idle rfl rfl rfl

theorem behind_headers (hinv : InOrder hash256 self) (hflag : self.block_processing = true) :
    self.next_process_idx < self.header_chain.length := by
  have hbelow : ∀ {idx data}, Names hash256 self.header_chain idx data → idx < self.header_chain.length :=
    fun hnames => (List.getElem?_eq_some_iff.mp hnames.2).1
  cases hinv.phase with
  | idle hidle => rw [hidle] at hflag; cases hflag
  | running batch _ _ hidx hblocks hcarries _ =>
    obtain ⟨block, rest, hcons⟩ := List.exists_cons_of_ne_nil hblocks
    rw [hcons] at hcarries
    have hnext := hbelow hcarries.1
    rw [hidx, reached] at hnext
    omega
  | finished sent last _ _ hrx _ _ =>
    -- The result in the channel is for an index at or above `next_process_idx`.
    have hreached : self.next_process_idx < self.reached := by
      rw [reached, hrx, List.length_append, List.length_singleton]
      omega
    have hmem : self.next_process_idx ∈ self.handed := by
      rw [hinv.handed, List.mem_range'_1]
      have hinitial := hinv.initial
      omega
    obtain ⟨call, hcall, hidx⟩ := List.mem_filterMap.mp hmem
    cases call with
    | direct data verdict => cases hidx
    | ordered idx data verdict =>
      cases hidx
      exact hbelow (hinv.named _ data verdict hcall)

theorem outstanding_le_one (hinv : InOrder hash256 self) : self.outstanding ≤ 1 := by
  have hzero : ∀ {results : List BlockProcessResult}, (∀ result ∈ results, result.batch_done = false) →
      results.countP (·.batch_done) = 0 :=
    fun hopen => List.countP_eq_zero.mpr fun result hmem => by simp [hopen result hmem]
  cases hinv.phase with
  | idle _ htasks hrx => simp [outstanding, htasks, hrx]
  | running batch _ htasks _ _ _ hopen => simp [outstanding, htasks, hzero hopen]
  | finished sent last _ htasks hrx hlast hopen => simp [outstanding, htasks, hrx, hlast, hzero hopen]

theorem processing_of_outstanding (hinv : InOrder hash256 self) (hout : self.outstanding ≠ 0) :
    self.block_processing = true := by
  cases hinv.phase with
  | idle _ htasks hrx => simp [outstanding, htasks, hrx] at hout
  | running _ hflag => exact hflag
  | finished _ _ hflag => exact hflag

theorem idle_of_outstanding (hinv : InOrder hash256 self) (hnone : self.outstanding = 0) :
    self.block_processing = false := by
  cases hinv.phase with
  | idle hflag => exact hflag
  | running _ _ htasks => simp [outstanding, htasks] at hnone
  | finished _ _ _ _ hrx hlast => simp [outstanding, hrx, hlast] at hnone

theorem extend (hinv : InOrder hash256 self) (more : List BlockHash) (header_set : Finset BlockHash) :
    InOrder hash256 { self with header_chain := self.header_chain ++ more, header_set } where
  keyed := hinv.keyed
  initial := hinv.initial
  handed := hinv.handed
  named idx data verdict hcall := (hinv.named idx data verdict hcall).append more
  phase := hinv.phase.congr rfl rfl rfl rfl rfl

theorem fast_forward (hinv : InOrder hash256 self) (tip_height_skip : Nat) :
    InOrder hash256 (self.fast_forward tip_height_skip) := by
  unfold NetProcessor.fast_forward
  split
  · next hforward =>
    obtain ⟨hzero, -, hidle⟩ := hforward
    -- No batch was ever started, so that nothing has been handed over.
    cases hinv.phase with
    | running _ hflag => exact absurd hflag hidle
    | finished _ _ hflag => exact absurd hflag hidle
    | idle hflag htasks hrx =>
      refine ⟨hinv.keyed, Nat.le_refl _, ?_, hinv.named, .idle hflag htasks hrx⟩
      have hhanded := hinv.handed
      rw [reached, hrx, hzero, List.length_nil, Nat.add_zero, Nat.zero_sub, List.range'_zero] at hhanded
      rw [reached, hrx, List.length_nil, Nat.add_zero, Nat.sub_self, List.range'_zero]
      exact hhanded
  · exact hinv

theorem buffer (hinv : InOrder hash256 self) (peer_id : Nat) {data : List UInt8} (hlength : 80 ≤ data.length) :
    InOrder hash256 { self with
      pending_blocks := self.pending_blocks.insert (hash256 (data.take 80)) (peer_id, data) } where
  keyed := hinv.keyed.insert peer_id hlength
  initial := hinv.initial
  handed := hinv.handed
  named := hinv.named
  phase := hinv.phase.congr rfl rfl rfl rfl (List.append_nil _).symm

theorem spawn_batch (hinv : InOrder hash256 self) (hidle : self.block_processing = false)
    (hbatch : self.batch ≠ []) : InOrder hash256 self.spawn_batch := by
  obtain ⟨hcarries, hleft⟩ := @take_batch_carries hash256 self.header_chain 500 self.next_process_idx _ hinv.keyed
  cases hinv.phase with
  | running _ hflag => rw [hidle] at hflag; cases hflag
  | finished _ _ hflag => rw [hidle] at hflag; cases hflag
  | idle _ htasks hrx =>
    refine ⟨hleft, hinv.initial, hinv.handed, hinv.named,
      .running ⟨self.next_process_idx, self.batch⟩ rfl ?_ ?_ hbatch hcarries ?_⟩
    · rw [NetProcessor.spawn_batch, htasks]
      rfl
    · rw [reached, NetProcessor.spawn_batch, hrx]
      rfl
    · rw [NetProcessor.spawn_batch, hrx]
      exact fun result hmem => nomatch hmem

theorem try_start_next_block (hinv : InOrder hash256 self) : InOrder hash256 (self.try_start_next_block world) := by
  unfold NetProcessor.try_start_next_block
  split
  · exact hinv
  · next hidle =>
    split
    · exact hinv
    · split
      · exact hinv.of_core (core_recover_head self world _)
      · next hbatch =>
        exact hinv.spawn_batch (by simpa using hidle) (by simpa using hbatch)

theorem check_head_of_line_stall (hinv : InOrder hash256 self) :
    InOrder hash256 (self.check_head_of_line_stall world) := by
  unfold NetProcessor.check_head_of_line_stall
  split
  · exact hinv
  · split
    · exact hinv
    · split
      · exact hinv.try_start_next_block
      · exact hinv.of_core (core_recover_head self world _)

theorem check_stalled_peers (hinv : InOrder hash256 self) : InOrder hash256 (self.check_stalled_peers world) := by
  unfold NetProcessor.check_stalled_peers
  have hdropped := hinv.of_core (core_foldl self core_drop_stalled (self.peers_with world (stalled world)))
  refine (@check_head_of_line_stall _ _ world hdropped).of_core ?_
  rw [core_reconnect, core_kick_idle_peers]

theorem work (hinv : InOrder hash256 self) (task : Nat) : InOrder hash256 (self.work world task) := by
  unfold NetProcessor.work
  split
  · next next_idx hash peer_id data rest htask =>
    cases hinv.phase with
    | idle _ htasks => rw [htasks] at htask; cases htask
    | finished _ _ _ htasks => rw [htasks] at htask; cases htask
    | running batch hflag htasks hidx hblocks hcarries hopen =>
      obtain ⟨rfl, rfl⟩ : task = 0 ∧ batch = ⟨next_idx, (hash, peer_id, data) :: rest⟩ := by
        rw [htasks] at htask
        cases task with
        | zero => exact ⟨rfl, Option.some.inj htask⟩
        | succ task => cases htask
      simp only at hidx hcarries
      refine ⟨hinv.keyed, hinv.initial, ?_, ?_, ?_⟩
      · have hinitial := hinv.initial
        have hcount : self.next_process_idx + (self.block_result_rx.length + 1) - self.initial_idx =
            (self.reached - self.initial_idx) + 1 := by
          rw [reached]
          omega
        have hlast : self.initial_idx + (self.reached - self.initial_idx) = next_idx := by
          rw [hidx, reached]
          omega
        rw [NetProcessor.handed, List.filterMap_append, reached, List.length_append, List.length_singleton, hcount,
          List.range'_concat, Nat.one_mul, hlast, ← hinv.handed]
        rfl
      · intro idx found verdict hcall
        rcases List.mem_append.mp hcall with hold | hnew
        · exact hinv.named idx found verdict hold
        · cases List.mem_singleton.mp hnew
          exact hcarries.1
      · cases hdone : rest.isEmpty || !(world.node.process_block data).is_ok with
        | true =>
          refine .finished self.block_result_rx _ hflag ?_ rfl hdone hopen
          dsimp only
          rw [if_pos hdone, htasks]
          rfl
        | false =>
          refine .running ⟨next_idx + 1, rest⟩ hflag ?_ ?_ ?_ hcarries.2 ?_
          · dsimp only
            rw [if_neg (by rw [hdone]; exact Bool.false_ne_true), htasks]
            rfl
          · simp only [hidx, reached, List.length_append, List.length_singleton]
            omega
          · rintro rfl
            cases hdone
          · intro result hmem
            rcases List.mem_append.mp hmem with hold | hnew
            · exact hopen result hold
            · rw [List.mem_singleton.mp hnew]
              exact hdone
  · exact hinv

/-- Taking the results moves `next_process_idx` to the point reached; the batch is over when its
    last result is among them. -/
theorem handle_results (hinv : InOrder hash256 self) : InOrder hash256 (self.handle_results world) := by
  have hinitial := hinv.initial
  have htaken : ∀ {flag : Bool}, Phase hash256 { self with
        next_process_idx := self.next_process_idx + self.block_result_rx.length
        block_result_rx := [], block_processing := flag } →
      InOrder hash256 { self with
        next_process_idx := self.next_process_idx + self.block_result_rx.length
        block_result_rx := [], block_processing := flag } :=
    fun hphase => ⟨hinv.keyed, by dsimp only; omega, hinv.handed, hinv.named, hphase⟩
  unfold NetProcessor.handle_results
  split
  · exact hinv
  · next hsome =>
    cases hinv.phase with
    | idle _ _ hrx => rw [hrx] at hsome; exact absurd rfl hsome
    | running batch hflag htasks hidx hblocks hcarries hopen =>
      have hdone : self.block_result_rx.any (·.batch_done) = false := by
        rw [List.any_eq_false]
        intro result hmem
        rw [hopen result hmem]
        exact Bool.false_ne_true
      rw [hdone]
      have hphase := htaken (.running batch hflag htasks hidx hblocks hcarries fun result hmem => nomatch hmem)
      exact hphase
    | finished sent last _ htasks hrx hlast _ =>
      have hdone : self.block_result_rx.any (·.batch_done) = true := by
        rw [List.any_eq_true]
        exact ⟨last, by rw [hrx]; simp, hlast⟩
      rw [hdone]
      exact (htaken (.idle rfl htasks rfl)).try_start_next_block

theorem process_directly (hinv : InOrder hash256 self) (peer_id : Nat) (data : List UInt8) :
    InOrder hash256 (self.process_directly world peer_id data) := by
  have hcalled : InOrder hash256 { self with
      calls := self.calls ++ [.direct data (world.node.process_block data)] } := by
    refine ⟨hinv.keyed, hinv.initial, ?_, ?_, hinv.phase.congr rfl rfl rfl rfl (List.append_nil _).symm⟩
    · rw [NetProcessor.handed, List.filterMap_append]
      exact (List.append_nil _).trans hinv.handed
    · intro idx found verdict hcall
      rcases List.mem_append.mp hcall with hold | hnew
      · exact hinv.named idx found verdict hold
      · cases List.mem_singleton.mp hnew
  unfold NetProcessor.process_directly
  dsimp only
  split
  · exact hcalled
  · split
    · exact hcalled
    · exact hcalled.of_core (core_misbehaving _ peer_id)
  · exact ⟨hcalled.keyed, hcalled.initial, hcalled.handed, hcalled.named,
      hcalled.phase.congr rfl rfl rfl rfl (List.append_nil _).symm⟩

theorem handle_block (hinv : InOrder hash256 self) (peer_id : Nat) (data : List UInt8) :
    InOrder hash256 (self.handle_block world hash256 peer_id data) := by
  unfold NetProcessor.handle_block
  split
  · next hlength =>
    have hmarked := hinv.of_core (core_mark_downloaded self world peer_id (hash256 (data.take 80)))
    dsimp only
    split
    · exact (hmarked.buffer peer_id hlength).try_start_next_block
    · exact hmarked.process_directly peer_id data
  · exact hinv.process_directly peer_id data

theorem push_header (hinv : InOrder hash256 self) (tip_height_skip : Nat) (hash : BlockHash) :
    InOrder hash256 (self.push_header tip_height_skip hash) := by
  have hpushed := hinv.extend [hash] self.header_set
  unfold NetProcessor.push_header
  dsimp only
  split
  · exact hpushed.of_core rfl
  · exact hpushed

theorem accept_results (tip_height_skip : Nat) (results : List (Except String Bool × BlockHash))
    (hinv : InOrder hash256 self) : InOrder hash256 (NetProcessor.accept_results tip_height_skip results self).2 := by
  induction results generalizing self with
  | nil => exact hinv
  | cons result rest ih =>
    obtain ⟨answer, hash⟩ := result
    cases answer with
    | ok _ => exact ih (hinv.push_header tip_height_skip hash)
    | error _ =>
      have herased := hinv.extend [] (self.header_set.erase hash)
      rw [List.append_nil] at herased
      exact herased

theorem handle_headers (hinv : InOrder hash256 self) (peer_id : Nat) (headers : List (List UInt8)) :
    InOrder hash256 (self.handle_headers world hash256 peer_id headers) := by
  unfold NetProcessor.handle_headers
  split
  · split
    · exact hinv
    · exact hinv.of_core (core_start_block_download self world)
  · split
    · exact hinv.of_core (core_misbehaving self peer_id)
    · dsimp only
      generalize hnew : new_headers hash256 headers _ = new
      have hseen : InOrder hash256 { self.fast_forward (max world.node.chain_height 0).toNat with
          header_set := new.1 } := by
        have hextended := (hinv.fast_forward (max world.node.chain_height 0).toNat).extend [] new.1
        rw [List.append_nil] at hextended
        exact hextended
      have haccepted := hseen.accept_results (max world.node.chain_height 0).toNat
        ((world.node.accept_block_headers_batch (new.2.map (·.2))).zip (new.2.map (·.1)))
      split
      · next hresult =>
        rw [hresult] at haccepted
        exact haccepted.of_core (core_misbehaving _ peer_id)
      · next hresult =>
        rw [hresult] at haccepted
        refine haccepted.of_core ?_
        split <;> split <;> first | rfl | simp only [core_start_block_download] <;> rfl

theorem turn (hinv : InOrder hash256 self) (event : Event) : InOrder hash256 (self.turn world hash256 event) := by
  cases event with
  | HandshakeComplete peer_id => exact hinv.of_core rfl
  | MessageReceived peer_id message =>
    cases message with
    | Headers headers => exact hinv.handle_headers peer_id headers
    | Block data => exact hinv.handle_block peer_id data
    | Inv inv | GetData inv =>
      rw [NetProcessor.turn, handle_message, handle_inv]
      split
      · exact hinv.of_core (core_misbehaving self peer_id)
      · exact hinv
    | FeeFilter fee =>
      rw [NetProcessor.turn, handle_message]
      split
      · exact hinv
      · exact hinv.of_core (core_misbehaving self peer_id)
    | NotFound inv => exact hinv.of_core (core_update_peer self peer_id _)
    | other => exact hinv
  | Disconnected peer_id => exact hinv.of_core (core_disconnected self world peer_id)
  | block_result => exact hinv.handle_results
  | tick => exact (@check_stalled_peers _ _ world hinv).try_start_next_block

theorem step (hinv : InOrder hash256 self) (action : Action) : InOrder hash256 (self.step world hash256 action) := by
  cases action with
  | wake event =>
    rw [NetProcessor.step]
    split
    · exact hinv
    · exact hinv.turn event
  | work task => exact hinv.work task

end InOrder

theorem run_in_order (hash256 : List UInt8 → Uint256) (now : Instant) (actions : List (World × Action)) :
    InOrder hash256 (run hash256 now actions) := by
  have hgrow : ∀ {self : NetProcessor}, InOrder hash256 self →
      InOrder hash256 (actions.foldl (fun self action => self.step action.1 hash256 action.2) self) := by
    induction actions with
    | nil => exact fun hinv => hinv
    | cons action actions ih => exact fun hinv => ih (hinv.step action.2)
  exact hgrow (.new now)

theorem InOrder.no_direct_call (hinv : InOrder hash256 self) (hout : self.outstanding ≠ 0) (peer_id : Nat)
    {data : List UInt8} (hlength : 80 ≤ data.length) :
    (self.handle_block world hash256 peer_id data).calls = self.calls := by
  have hflag := hinv.processing_of_outstanding hout
  have hbehind := hinv.behind_headers hflag
  have hcore := core_mark_downloaded self world peer_id (hash256 (data.take 80))
  generalize hmarked : self.mark_downloaded world peer_id (hash256 (data.take 80)) = marked at hcore
  have hidx : marked.next_process_idx = self.next_process_idx := by
    exact congrArg (fun core => core.next_process_idx) hcore
  have hchain : marked.header_chain = self.header_chain := by
    exact congrArg (fun core => core.header_chain) hcore
  have hbusy : marked.block_processing = true := by
    exact (congrArg (fun core => core.block_processing) hcore).trans hflag
  have hcalls : marked.calls = self.calls := by
    exact congrArg (fun core => core.calls) hcore
  rw [NetProcessor.handle_block, if_pos hlength]
  dsimp only
  rw [hmarked, if_pos (Or.inr (by rw [hidx, hchain]; exact hbehind)), NetProcessor.try_start_next_block]
  dsimp only
  rw [if_pos hbusy]
  exact hcalls

/-- In every order of peer events, batch results and ticks, at most one batch is outstanding,
    a payload with a header is not processed beside it, and the indices that batches hand to
    `process_block` increase, each with a payload for the header at that index. -/
theorem one_block_writer (hash256 : List UInt8 → Uint256) (now : Instant) (actions : List (World × Action)) :
    (run hash256 now actions).outstanding ≤ 1 ∧
      (∀ world peer_id data, 80 ≤ data.length → (run hash256 now actions).outstanding ≠ 0 →
        ((run hash256 now actions).handle_block world hash256 peer_id data).calls = (run hash256 now actions).calls) ∧
      (run hash256 now actions).handed.Pairwise (· < ·) ∧
      ∀ idx data verdict, Call.ordered idx data verdict ∈ (run hash256 now actions).calls →
        Names hash256 (run hash256 now actions).header_chain idx data := by
  have hinv := run_in_order hash256 now actions
  refine ⟨hinv.outstanding_le_one, ?_, ?_, hinv.named⟩
  · intro world peer_id data hlength hout
    exact hinv.no_direct_call hout peer_id hlength
  · rw [hinv.handed]
    exact List.pairwise_lt_range'

def accepting_world : World :=
  ⟨0, id, fun _ => .refl _, ⟨fun _ => .returned (.ok true), fun headers => headers.map fun _ => .ok true, 0⟩⟩

/-- A header of zeros and a block for it. -/
def zero_delivery : List (World × Action) :=
  [(accepting_world, .wake (.HandshakeComplete 1)),
    (accepting_world, .wake (.MessageReceived 1 (.Headers [List.replicate 80 0]))),
    (accepting_world, .wake (.MessageReceived 1 (.Block (List.replicate 81 0))))]

theorem one_block_writer_second_block :
    (run crypto.sha256d 0 zero_delivery).outstanding = 1 ∧
      ((run crypto.sha256d 0 zero_delivery).handle_block accepting_world crypto.sha256d 2 (List.replicate 80 1)).calls =
        [] := by
  have heval : (run crypto.sha256d 0 zero_delivery).outstanding = 1 ∧
      (run crypto.sha256d 0 zero_delivery).calls = [] := by
    decide +kernel
  refine ⟨heval.1, ?_⟩
  rw [(one_block_writer crypto.sha256d 0 zero_delivery).2.1 accepting_world 2 _ (by decide) (by rw [heval.1]; decide)]
  exact heval.2

end NetProcessor

end qubitcoin.net_processing
