import Qubitcoin.Daemon.Pointers
import Qubitcoin.Net.Batches

/-! What becomes of a block whose payload the node refuses. -/

open qubitcoin.primitives transition

namespace qubitcoin.net_processing

theorem PeerSyncState.in_flight_iff {state : PeerSyncState} {hash : BlockHash} :
    state.in_flight hash = true ↔ ∃ time, (hash, time) ∈ state.blocks_in_flight := by
  unfold PeerSyncState.in_flight
  rw [List.any_eq_true]
  constructor
  · rintro ⟨⟨found, time⟩, hmem, heq⟩
    exact ⟨time, eq_of_beq heq ▸ hmem⟩
  · rintro ⟨time, hmem⟩
    exact ⟨(hash, time), hmem, beq_self_eq_true hash⟩

namespace NetProcessor

variable {hash256 : List UInt8 → Uint256} {self after : NetProcessor} {world : World}

theorem calls_of_core (hcore : after.core = self.core) : after.calls = self.calls := by
  exact congrArg (fun core => core.calls) hcore

theorem calls_try_start_next_block : (self.try_start_next_block world).calls = self.calls := by
  unfold try_start_next_block
  split
  · rfl
  · split
    · rfl
    · split
      · exact calls_of_core (core_recover_head self world _)
      · rfl

theorem calls_check_head_of_line_stall : (self.check_head_of_line_stall world).calls = self.calls := by
  unfold check_head_of_line_stall
  split
  · rfl
  · split
    · rfl
    · split
      · exact calls_try_start_next_block
      · exact calls_of_core (core_recover_head self world _)

theorem calls_check_stalled_peers : (self.check_stalled_peers world).calls = self.calls := by
  unfold check_stalled_peers
  have hcore : ∀ stalled : NetProcessor,
      ((stalled.check_head_of_line_stall world).kick_idle_peers world |>.reconnect world).core =
        (stalled.check_head_of_line_stall world).core := by
    intro stalled
    rw [core_reconnect, core_kick_idle_peers]
  rw [calls_of_core (hcore _), calls_check_head_of_line_stall]
  exact calls_of_core (core_foldl self core_drop_stalled _)

theorem calls_handle_results : (self.handle_results world).calls = self.calls := by
  unfold handle_results
  split
  · rfl
  · dsimp only
    split
    · exact calls_try_start_next_block
    · rfl

theorem calls_accept_results (tip_height_skip : Nat) (results : List (Except String Bool × BlockHash)) :
    (accept_results tip_height_skip results self).2.calls = self.calls := by
  induction results generalizing self with
  | nil => rfl
  | cons result rest ih =>
    obtain ⟨answer, hash⟩ := result
    cases answer with
    | error _ => rfl
    | ok _ =>
      rw [accept_results, ih, push_header]
      dsimp only
      split <;> rfl

theorem calls_handle_headers (peer_id : Nat) (headers : List (List UInt8)) :
    (self.handle_headers world hash256 peer_id headers).calls = self.calls := by
  unfold handle_headers
  split
  · split
    · rfl
    · exact calls_of_core (core_start_block_download self world)
  · split
    · exact calls_of_core (core_misbehaving self peer_id)
    · dsimp only
      generalize new_headers hash256 headers _ = new
      have hforward : (self.fast_forward (max world.node.chain_height 0).toNat).calls = self.calls := by
        unfold fast_forward
        split <;> rfl
      have hcalls := (@calls_accept_results
        { self.fast_forward (max world.node.chain_height 0).toNat with header_set := new.1 }
        (max world.node.chain_height 0).toNat
        ((world.node.accept_block_headers_batch (new.2.map (·.2))).zip (new.2.map (·.1)))).trans hforward
      split
      · next hresult =>
        rw [hresult] at hcalls
        exact (calls_of_core (core_misbehaving _ peer_id)).trans hcalls
      · next accepted hresult =>
        rw [hresult] at hcalls
        refine Eq.trans (calls_of_core ?_) hcalls
        split <;> split <;> first | rfl | simp only [core_start_block_download] <;> rfl

theorem calls_process_directly (peer_id : Nat) (data : List UInt8) :
    (self.process_directly world peer_id data).calls =
      self.calls ++ [.direct data (world.node.process_block data)] := by
  unfold process_directly
  dsimp only
  split
  · rfl
  · split
    · rfl
    · exact calls_of_core (core_misbehaving _ peer_id)
  · rfl

theorem calls_handle_block (peer_id : Nat) (data : List UInt8) :
    (self.handle_block world hash256 peer_id data).calls = self.calls ∨
      (self.handle_block world hash256 peer_id data).calls =
        self.calls ++ [.direct data (world.node.process_block data)] := by
  have hmarked := calls_of_core (core_mark_downloaded self world peer_id (hash256 (data.take 80)))
  unfold handle_block
  split
  · dsimp only
    split
    · exact .inl (calls_try_start_next_block.trans hmarked)
    · right
      rw [calls_process_directly, hmarked]
  · exact .inr (calls_process_directly peer_id data)

theorem ordered_of_turn {event : Event} {idx : Nat} {data : List UInt8} {verdict : Verdict}
    (hcall : Call.ordered idx data verdict ∈ (self.turn world hash256 event).calls) :
    Call.ordered idx data verdict ∈ self.calls := by
  have hkept : (self.turn world hash256 event).calls = self.calls →
      Call.ordered idx data verdict ∈ self.calls := fun heq => heq ▸ hcall
  cases event with
  | HandshakeComplete peer_id => exact hkept rfl
  | MessageReceived peer_id message =>
    cases message with
    | Headers headers => exact hkept (calls_handle_headers peer_id headers)
    | Block payload =>
      rcases @calls_handle_block hash256 self world peer_id payload with heq | heq
      · exact hkept heq
      · rw [turn, handle_message, heq, List.mem_append, List.mem_singleton] at hcall
        exact hcall.resolve_right fun hordered => by cases hordered
    | Inv inv | GetData inv =>
      refine hkept ?_
      rw [turn, handle_message, handle_inv]
      split
      · exact calls_of_core (core_misbehaving self peer_id)
      · rfl
    | FeeFilter fee =>
      refine hkept ?_
      rw [turn, handle_message]
      split
      · rfl
      · exact calls_of_core (core_misbehaving self peer_id)
    | NotFound inv => exact hkept (calls_of_core (core_update_peer self peer_id _))
    | other => exact hcall
  | Disconnected peer_id => exact hkept (calls_of_core (core_disconnected self world peer_id))
  | block_result => exact hkept calls_handle_results
  | tick => exact hkept (calls_try_start_next_block.trans calls_check_stalled_peers)

/-- The block is queued for download, or some peer has been asked for it. -/
def Requested (self : NetProcessor) (hash : BlockHash) : Prop :=
  hash ∈ self.blocks_to_download ∨
    ∃ peer_id state, self.peer_states.lookup peer_id = some state ∧ state.in_flight hash = true

theorem assign_blocks_keeps {downloaded : Finset BlockHash} {hash : BlockHash} (hmissing : hash ∉ downloaded)
    (pops : Nat) : ∀ {slots : Nat} {queue : List BlockHash}, hash ∈ queue →
      hash ∈ (assign_blocks downloaded slots pops queue).1 ∨ hash ∈ (assign_blocks downloaded slots pops queue).2 := by
  induction pops with
  | zero =>
    intro slots queue hmem
    cases slots <;> exact .inr hmem
  | succ pops ih =>
    intro slots queue hmem
    cases slots with
    | zero => exact .inr hmem
    | succ slots =>
      cases queue with
      | nil => cases hmem
      | cons front queue =>
        rw [assign_blocks]
        split
        · next hfront =>
          have hrest : hash ∈ queue := by
            rcases List.mem_cons.mp hmem with heq | hrest
            · exact absurd (heq ▸ hfront) hmissing
            · exact hrest
          exact ih hrest
        · rcases List.mem_cons.mp hmem with heq | hrest
          · exact .inl (List.mem_cons.mpr (.inl heq))
          · rcases @ih slots queue hrest with htaken | hleft
            · exact .inl (List.mem_cons_of_mem front htaken)
            · exact .inr hleft

theorem in_flight_insert {hash : BlockHash} {peer_id : Nat} {old new : PeerSyncState} {states : HashMap Nat PeerSyncState}
    (hold : states.lookup peer_id = some old) (hkeep : old.in_flight hash = true → new.in_flight hash = true)
    (hflight : ∃ peer state, states.lookup peer = some state ∧ state.in_flight hash = true) :
    ∃ peer state, (states.insert peer_id new).lookup peer = some state ∧ state.in_flight hash = true := by
  obtain ⟨peer, state, hlookup, hin⟩ := hflight
  by_cases heq : peer = peer_id
  · subst heq
    rw [hold] at hlookup
    cases hlookup
    exact ⟨peer, new, AList.lookup_insert _, hkeep hin⟩
  · exact ⟨peer, state, (AList.lookup_insert_ne heq).trans hlookup, hin⟩

theorem Requested.request_blocks {hash : BlockHash} (hrequested : self.Requested hash)
    (hmissing : hash ∉ self.blocks_downloaded) (peer_id : Nat) :
    (self.request_blocks world peer_id).Requested hash ∧
      (self.request_blocks world peer_id).blocks_downloaded = self.blocks_downloaded := by
  unfold NetProcessor.request_blocks
  split
  · exact ⟨hrequested, rfl⟩
  · split
    · exact ⟨hrequested, rfl⟩
    · next state hstate =>
      split
      · exact ⟨hrequested, rfl⟩
      · refine ⟨?_, rfl⟩
        rcases hrequested with hqueued | hflight
        · rcases assign_blocks_keeps hmissing _ hqueued with htaken | hleft
          · right
            refine ⟨peer_id, _, AList.lookup_insert _, PeerSyncState.in_flight_iff.mpr ⟨world.now, ?_⟩⟩
            exact List.mem_append_right _ (List.mem_map_of_mem htaken)
          · exact .inl hleft
        · right
          refine in_flight_insert hstate (fun hin => ?_) hflight
          obtain ⟨time, hmem⟩ := PeerSyncState.in_flight_iff.mp hin
          exact PeerSyncState.in_flight_iff.mpr ⟨time, List.mem_append_left _ hmem⟩

theorem Requested.request_from {hash : BlockHash} (peer_ids : List Nat) (hrequested : self.Requested hash)
    (hmissing : hash ∉ self.blocks_downloaded) : (self.request_from world peer_ids).Requested hash := by
  unfold NetProcessor.request_from
  induction peer_ids generalizing self with
  | nil => exact hrequested
  | cons peer_id peer_ids ih =>
    obtain ⟨hafter, hsame⟩ := hrequested.request_blocks hmissing peer_id
    exact ih hafter (hsame ▸ hmissing)

theorem lookup_update_peer (peer_id peer : Nat) (f : PeerSyncState → PeerSyncState) :
    (self.update_peer peer_id f).peer_states.lookup peer =
      if peer = peer_id then (self.peer_states.lookup peer).map f else self.peer_states.lookup peer := by
  unfold update_peer
  split
  · next state hstate =>
    split
    · next heq =>
      rw [heq, hstate]
      exact AList.lookup_insert _
    · next hne => exact AList.lookup_insert_ne hne
  · next hnone =>
    split
    · next heq => rw [heq, hnone, Option.map_none]
    · rfl

theorem Requested.update_peer {hash : BlockHash} (hrequested : self.Requested hash) (peer_id : Nat)
    {f : PeerSyncState → PeerSyncState} (hkeep : ∀ state, state.in_flight hash = true → (f state).in_flight hash = true) :
    (self.update_peer peer_id f).Requested hash := by
  rcases hrequested with hqueued | ⟨peer, state, hlookup, hin⟩
  · left
    unfold NetProcessor.update_peer
    split <;> exact hqueued
  · right
    by_cases heq : peer = peer_id
    · refine ⟨peer, f state, ?_, hkeep state hin⟩
      rw [lookup_update_peer, if_pos heq, hlookup, Option.map_some]
    · refine ⟨peer, state, ?_, hin⟩
      rw [lookup_update_peer, if_neg heq]
      exact hlookup

theorem in_flight_append (state : PeerSyncState) (hash : BlockHash) (time : Instant) :
    { state with blocks_in_flight := state.blocks_in_flight ++ [(hash, time)] }.in_flight hash = true :=
  PeerSyncState.in_flight_iff.mpr ⟨time, List.mem_append_right _ (List.mem_singleton.mpr rfl)⟩

theorem Requested.direct_request {hash : BlockHash} (hrequested : self.Requested hash) (peer_ids : List Nat) :
    (self.direct_request world hash peer_ids).Requested hash := by
  unfold NetProcessor.direct_request
  induction peer_ids generalizing self with
  | nil => exact hrequested
  | cons peer_id peer_ids ih =>
    exact ih (hrequested.update_peer peer_id fun state _ => in_flight_append state hash world.now)

theorem requested_of_direct_request {hash : BlockHash} {peer_ids : List Nat} (hsome : peer_ids ≠ [])
    (hknown : ∀ peer_id ∈ peer_ids, (self.peer_states.lookup peer_id).isSome = true) :
    (self.direct_request world hash peer_ids).Requested hash := by
  obtain ⟨peer_id, rest, rfl⟩ := List.exists_cons_of_ne_nil hsome
  obtain ⟨state, hstate⟩ := Option.isSome_iff_exists.mp (hknown peer_id List.mem_cons_self)
  refine Requested.direct_request (Or.inr ⟨peer_id, _, ?_, in_flight_append state hash world.now⟩) rest
  rw [lookup_update_peer, if_pos rfl, hstate, Option.map_some]

theorem mem_peers_with {p : PeerSyncState → Bool} {peer_id : Nat} :
    peer_id ∈ self.peers_with world p ↔ ∃ state, self.peer_states.lookup peer_id = some state ∧ p state = true := by
  unfold peers_with
  rw [List.mem_filter, (world.order_perm _).mem_iff]
  constructor
  · rintro ⟨-, hp⟩
    split at hp
    · next state hstate => exact ⟨state, hstate, hp⟩
    · cases hp
  · rintro ⟨state, hstate, hp⟩
    refine ⟨?_, by rw [hstate]; exact hp⟩
    exact AList.mem_keys.mp (AList.lookup_isSome.mp (by rw [hstate]; rfl))

theorem holder_of_eq_some {hash : BlockHash} {peer_id : Nat} {time : Instant}
    (hholder : self.holder_of world hash = some (peer_id, time)) :
    ∃ state, self.peer_states.lookup peer_id = some state ∧ (hash, time) ∈ state.blocks_in_flight := by
  obtain ⟨peer, -, hfound⟩ := List.exists_of_findSome?_eq_some hholder
  obtain ⟨state, hstate, hrequest⟩ := Option.bind_eq_some_iff.mp hfound
  obtain ⟨⟨found, req_time⟩, hfind, heq⟩ := Option.map_eq_some_iff.mp hrequest
  cases heq
  have hbeq := List.find?_some hfind
  have hhash : found = hash := eq_of_beq hbeq
  exact ⟨state, hstate, hhash ▸ List.mem_of_find?_eq_some hfind⟩

theorem redistribute_requested {hash : BlockHash} {slow_pid : Nat} (hflight : hash ∈ self.in_flight_of slow_pid)
    (hmissing : hash ∉ self.blocks_downloaded) : (self.redistribute world slow_pid).Requested hash := by
  have hkept : (self.update_peer slow_pid fun state =>
      { state with blocks_in_flight := [], stall_count := state.stall_count + 1 }).blocks_downloaded =
        self.blocks_downloaded := by
    unfold update_peer
    split <;> rfl
  unfold redistribute
  dsimp only
  split
  · next hempty =>
    rw [List.isEmpty_iff.mp hempty] at hflight
    cases hflight
  · refine Requested.request_from _ (Or.inl ?_) ?_
    · exact List.mem_append_left _ (List.mem_reverse.mpr hflight)
    · exact hkept ▸ hmissing

theorem steal_requested {hash : BlockHash} {slow_pid : Nat} (hmissing : hash ∉ self.blocks_downloaded) :
    (self.steal world hash slow_pid).Requested hash := by
  have hkept : ∀ (processor : NetProcessor) (peer_id : Nat) (f : PeerSyncState → PeerSyncState),
      (processor.update_peer peer_id f).blocks_downloaded = processor.blocks_downloaded := by
    intro processor peer_id f
    unfold update_peer
    split <;> rfl
  have hdirect : ∀ (peer_ids : List Nat) (processor : NetProcessor),
      (processor.direct_request world hash peer_ids).blocks_downloaded = processor.blocks_downloaded := by
    intro peer_ids
    unfold direct_request
    induction peer_ids with
    | nil => exact fun _ => rfl
    | cons peer_id peer_ids ih => exact fun processor => (ih _).trans (hkept processor peer_id _)
  unfold steal
  dsimp only
  split
  · refine (Requested.request_blocks (Or.inl List.mem_cons_self) ?_ slow_pid).1
    exact (hkept self slow_pid _).symm ▸ hmissing
  · next hfast =>
    refine (Requested.request_blocks (requested_of_direct_request ?_ ?_) ?_ slow_pid).1
    · simpa using hfast
    · intro peer_id hmem
      obtain ⟨state, hstate, -⟩ := mem_peers_with.mp (List.mem_filter.mp hmem).1
      rw [hstate]
      rfl
    · rw [hdirect, hkept]
      exact hmissing

theorem recover_head_requested {hash : BlockHash} (hmissing : self.pending_blocks.lookup hash = none)
    (hroom : ∃ peer_id state, self.peer_states.lookup peer_id = some state ∧ has_room state = true) :
    (self.recover_head world hash).Requested hash := by
  have hlost : hash ∉ (self.requeue_lost hash).blocks_downloaded := by
    unfold requeue_lost
    split
    · exact Finset.notMem_erase hash _
    · next hkept => exact fun hmem => hkept ⟨hmem, by rw [hmissing]; rfl⟩
  have hpeers : (self.requeue_lost hash).peer_states = self.peer_states := by
    unfold requeue_lost
    split <;> rfl
  unfold recover_head
  dsimp only
  generalize self.requeue_lost hash = lost at hlost hpeers
  split
  · obtain ⟨peer_id, state, hstate, hfree⟩ := hroom
    have hmem : peer_id ∈ lost.peers_with world has_room := mem_peers_with.mpr ⟨state, by rw [hpeers]; exact hstate, hfree⟩
    refine requested_of_direct_request (List.ne_nil_of_mem hmem) fun peer hpeer => ?_
    obtain ⟨found, hfound, -⟩ := mem_peers_with.mp hpeer
    rw [hfound]
    rfl
  · next slow_pid req_time hholder =>
    obtain ⟨state, hstate, hflight⟩ := holder_of_eq_some hholder
    split
    · split
      · refine redistribute_requested ?_ hlost
        rw [in_flight_of, hstate]
        exact List.mem_map_of_mem hflight
      · exact steal_requested hlost
    · exact .inr ⟨slow_pid, state, hstate, PeerSyncState.in_flight_iff.mpr ⟨req_time, hflight⟩⟩

theorem check_head_of_line_stall_requested {hash : BlockHash}
    (hhead : self.header_chain[self.next_process_idx]? = some hash) (hidle : self.block_processing = false)
    (hmissing : self.pending_blocks.lookup hash = none)
    (hroom : ∃ peer_id state, self.peer_states.lookup peer_id = some state ∧ has_room state = true) :
    (self.check_head_of_line_stall world).Requested hash := by
  unfold check_head_of_line_stall
  rw [hhead, hidle]
  dsimp only
  rw [hmissing]
  exact recover_head_requested hmissing hroom

/-- Some payload for the index was accepted by the node. -/
def Accepted (hash256 : List UInt8 → Uint256) (self : NetProcessor) (idx : Nat) : Prop :=
  ∃ call ∈ self.calls, call.verdict.is_ok = true ∧ Names hash256 self.header_chain idx call.data

instance Accepted.decidable (hash256 : List UInt8 → Uint256) (self : NetProcessor) (idx : Nat) :
    Decidable (self.Accepted hash256 idx) :=
  inferInstanceAs (Decidable (∃ call ∈ self.calls, call.verdict.is_ok = true ∧
    80 ≤ call.data.length ∧ self.header_chain[idx]? = some (hash256 (call.data.take 80))))

/-- The node accepts the payload that a blocking task is about to hand to it. -/
def accepting (self : NetProcessor) (action : World × Action) : Bool :=
  match action.2 with
  | .wake _ => true
  | .work task =>
    match self.tasks[task]? with
    | some ⟨_, (_, _, data) :: _⟩ => (action.1.node.process_block data).is_ok
    | _ => true

theorem ordered_is_ok_of_step {action : World × Action} (haccepting : self.accepting action = true)
    (hok : ∀ idx data verdict, Call.ordered idx data verdict ∈ self.calls → verdict.is_ok = true) :
    ∀ idx data verdict, Call.ordered idx data verdict ∈ (self.step action.1 hash256 action.2).calls →
      verdict.is_ok = true := by
  intro idx data verdict hcall
  obtain ⟨world, action⟩ := action
  cases action with
  | wake event =>
    rw [step] at hcall
    split at hcall
    · exact hok idx data verdict hcall
    · exact hok idx data verdict (ordered_of_turn hcall)
  | work task =>
    rw [step, work] at hcall
    unfold accepting at haccepting
    dsimp only at haccepting hcall
    split at hcall
    · next htask =>
      rw [htask] at haccepting
      rcases List.mem_append.mp hcall with hold | hnew
      · exact hok idx data verdict hold
      · cases List.mem_singleton.mp hnew
        exact haccepting
    · exact hok idx data verdict hcall

theorem ordered_is_ok_of_run {start : NetProcessor} {actions : List (World × Action)}
    (haccepting : Allowed (fun self action => self.accepting action = true)
      (fun self action => self.step action.1 hash256 action.2) start actions)
    (hok : ∀ idx data verdict, Call.ordered idx data verdict ∈ start.calls → verdict.is_ok = true) :
    ∀ idx data verdict,
      Call.ordered idx data verdict ∈
          (actions.foldl (fun self action => self.step action.1 hash256 action.2) start).calls →
        verdict.is_ok = true := by
  induction actions generalizing start with
  | nil => exact hok
  | cons action actions ih => exact ih haccepting.2 (ordered_is_ok_of_step haccepting.1 hok)

theorem InOrder.accepted (hinv : InOrder hash256 self) {idx : Nat} (hlow : self.initial_idx ≤ idx)
    (hhigh : idx < self.next_process_idx)
    (hok : ∀ idx data verdict, Call.ordered idx data verdict ∈ self.calls → verdict.is_ok = true) :
    self.Accepted hash256 idx := by
  have hmem : idx ∈ self.handed := by
    rw [hinv.handed, List.mem_range'_1, reached]
    omega
  obtain ⟨call, hcall, hidx⟩ := List.mem_filterMap.mp hmem
  cases call with
  | direct data verdict => cases hidx
  | ordered found data verdict =>
    cases hidx
    exact ⟨_, hcall, hok _ data verdict hcall, hinv.named _ data verdict hcall⟩

/-- If the node accepts what the batches hand to it, no index is passed without a payload that
    it has accepted. So a payload that is refused leaves its index ahead, unless another one
    for it is accepted; and when the next block is missing and no batch is outstanding, it is
    requested again as soon as some peer has room. -/
theorem no_block_skipped (hash256 : List UInt8 → Uint256) (now : Instant) (actions : List (World × Action))
    (haccepting : Allowed (fun self action => self.accepting action = true)
      (fun self action => self.step action.1 hash256 action.2) (new now) actions) :
    (∀ idx, (run hash256 now actions).initial_idx ≤ idx → idx < (run hash256 now actions).next_process_idx →
      (run hash256 now actions).Accepted hash256 idx) ∧
    (∀ call ∈ (run hash256 now actions).calls, call.verdict.is_ok = false →
      ∀ idx, (run hash256 now actions).initial_idx ≤ idx →
        Names hash256 (run hash256 now actions).header_chain idx call.data →
        (run hash256 now actions).Accepted hash256 idx ∨ (run hash256 now actions).next_process_idx ≤ idx) ∧
    ∀ world hash, (run hash256 now actions).header_chain[(run hash256 now actions).next_process_idx]? = some hash →
      (run hash256 now actions).outstanding = 0 → (run hash256 now actions).pending_blocks.lookup hash = none →
      (∃ peer_id state, (run hash256 now actions).peer_states.lookup peer_id = some state ∧ has_room state = true) →
      ((run hash256 now actions).check_head_of_line_stall world).Requested hash := by
  have hinv := run_in_order hash256 now actions
  have hok := ordered_is_ok_of_run haccepting fun _ _ _ hmem => nomatch hmem
  refine ⟨fun idx hlow hhigh => hinv.accepted hlow hhigh hok, ?_, ?_⟩
  · intro call _ _ idx hlow _
    by_cases hhigh : idx < (run hash256 now actions).next_process_idx
    · exact .inl (hinv.accepted hlow hhigh hok)
    · exact .inr (Nat.le_of_not_lt hhigh)
  · intro world hash hhead hnone hmissing hroom
    exact check_head_of_line_stall_requested hhead (hinv.idle_of_outstanding hnone) hmissing hroom

end NetProcessor

section

open qubitcoin.qubitcoind

variable (env : Env) (render : Failure BlockError → String)

def accept_headers (now : Int) : LiveNodeInterface → List (List UInt8) → List (Except String Bool)
  | _, [] => []
  | node, header_data :: headers =>
    let (answer, node) := node.accept_block_header env header_data now
    answer.mapError render :: accept_headers now node headers

/-- The answers of a node of the daemon; `chain_height` is the height that it has published. -/
def live_node (node : LiveNodeInterface) (world : qubitcoind.World) (chain_height : Int) : NodeInterface where
  process_block data :=
    match (node.process_block env data world).1 with
    | .ok accepted => .returned (.ok accepted)
    | .error (.invalid e) => .returned (.error (render (.invalid e)))
    | .error (.panic why) => .panicked (render (.panic why))
  accept_block_headers_batch := accept_headers env render world.now node
  chain_height

theorem listed_as_kept (peers : List Nat) : (id peers).Perm peers := .refl peers

/-- A turn in which the peers are listed as they are kept. -/
def live_world (node : LiveNodeInterface) (world : qubitcoind.World) : World :=
  ⟨0, id, listed_as_kept, live_node .op_true (fun _ => "") node world 0⟩

/-- A peer sends the first header of the regression-test network and a payload for it. -/
def first_delivery (data : List UInt8) : List (World × Action) :=
  let before := live_world (regtest_node none) (regtest_world 300)
  let later := live_world Archive.header_archive.node (regtest_world 300)
  [(before, .wake (.HandshakeComplete 1)),
    (before, .wake (.MessageReceived 1 (.Headers [chainstate.first_block.header.encode]))),
    (later, .wake (.MessageReceived 1 (.Block data))), (later, .work 0), (later, .wake .block_result)]

end

namespace NetProcessor

theorem no_block_skipped_first_block :
    (run crypto.sha256d 0 (first_delivery chainstate.first_block.encode)).next_process_idx = 1 ∧
      (run crypto.sha256d 0 (first_delivery chainstate.first_block.encode)).Accepted crypto.sha256d 0 := by
  have heval : (run crypto.sha256d 0 (first_delivery chainstate.first_block.encode)).next_process_idx = 1 ∧
      (run crypto.sha256d 0 (first_delivery chainstate.first_block.encode)).initial_idx = 0 ∧
      Allowed (fun self action => self.accepting action = true)
        (fun self action => self.step action.1 crypto.sha256d action.2) (new 0)
        (first_delivery chainstate.first_block.encode) := by
    decide +kernel
  obtain ⟨hnext, hinitial, haccepting⟩ := heval
  refine ⟨hnext, (no_block_skipped crypto.sha256d 0 _ haccepting).1 0 ?_ ?_⟩
  · rw [hinitial]
  · rw [hnext]
    exact Nat.one_pos

/-- A payload that is the header alone is refused, and yet `next_process_idx` moves past the
    block: nothing was accepted for it, and it is neither queued nor requested again. -/
theorem no_block_skipped_fails :
    ¬ (∀ idx, (run crypto.sha256d 0 (first_delivery chainstate.first_block.header.encode)).initial_idx ≤ idx →
        idx < (run crypto.sha256d 0 (first_delivery chainstate.first_block.header.encode)).next_process_idx →
        (run crypto.sha256d 0 (first_delivery chainstate.first_block.header.encode)).Accepted crypto.sha256d idx) ∧
      (run crypto.sha256d 0 (first_delivery chainstate.first_block.header.encode)).blocks_to_download = [] ∧
      (run crypto.sha256d 0 (first_delivery chainstate.first_block.header.encode)).peer_states.entries.all
        (fun entry => entry.2.blocks_in_flight.isEmpty) = true := by
  have heval : (run crypto.sha256d 0 (first_delivery chainstate.first_block.header.encode)).initial_idx = 0 ∧
      (run crypto.sha256d 0 (first_delivery chainstate.first_block.header.encode)).next_process_idx = 1 ∧
      ¬ (run crypto.sha256d 0 (first_delivery chainstate.first_block.header.encode)).Accepted crypto.sha256d 0 ∧
      (run crypto.sha256d 0 (first_delivery chainstate.first_block.header.encode)).blocks_to_download = [] ∧
      (run crypto.sha256d 0 (first_delivery chainstate.first_block.header.encode)).peer_states.entries.all
        (fun entry => entry.2.blocks_in_flight.isEmpty) = true := by
    decide +kernel
  obtain ⟨hinitial, hnext, hrefused, hqueue, hflight⟩ := heval
  refine ⟨fun hall => hrefused (hall 0 ?_ ?_), hqueue, hflight⟩
  · rw [hinitial]
  · rw [hnext]
    exact Nat.one_pos

end NetProcessor

end qubitcoin.net_processing
