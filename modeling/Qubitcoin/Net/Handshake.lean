import Qubitcoin.Net.Batches
import Qubitcoin.Net.Framing

/-! The handshake of a connection, for any messages of the peer. -/

open qubitcoin primitives protocol

namespace qubitcoin.net_processing

namespace NetProcessor

/-- The processor has a sync state for the peer. -/
def Knows (self : NetProcessor) (peer_id : Nat) : Prop := peer_id ∈ self.peer_states

variable {self : NetProcessor} {world : World} {hash256 : List UInt8 → Uint256} {peer : Nat}

theorem Knows.of_insert {states : HashMap Nat PeerSyncState} {peer_id : Nat} {old new : PeerSyncState}
    (hstates : self.peer_states = states.insert peer_id new) (hold : states.lookup peer_id = some old)
    (hknows : self.Knows peer) : peer ∈ states := by
  rw [Knows, hstates, AList.mem_insert] at hknows
  rcases hknows with rfl | hmem
  · exact AList.lookup_isSome.mp (by rw [hold]; rfl)
  · exact hmem

theorem Knows.of_update_peer {peer_id : Nat} {f : PeerSyncState → PeerSyncState}
    (hknows : (self.update_peer peer_id f).Knows peer) : self.Knows peer := by
  unfold update_peer at hknows
  split at hknows
  · next state hstate => exact hknows.of_insert rfl hstate
  · exact hknows

theorem Knows.of_foldl {A : Type} {f : NetProcessor → A → NetProcessor}
    (hf : ∀ self a, (f self a).Knows peer → self.Knows peer) (xs : List A)
    (hknows : (xs.foldl f self).Knows peer) : self.Knows peer := by
  induction xs generalizing self with
  | nil => exact hknows
  | cons x xs ih => exact hf self x (ih hknows)

theorem Knows.of_request_blocks {peer_id : Nat} (hknows : (self.request_blocks world peer_id).Knows peer) :
    self.Knows peer := by
  unfold request_blocks at hknows
  split at hknows
  · exact hknows
  · split at hknows
    · exact hknows
    · next state hstate =>
      split at hknows
      · exact hknows
      · exact hknows.of_insert rfl hstate

theorem Knows.of_request_from {peer_ids : List Nat} (hknows : (self.request_from world peer_ids).Knows peer) :
    self.Knows peer :=
  hknows.of_foldl (fun _ _ => of_request_blocks) peer_ids

theorem Knows.of_direct_request {hash : BlockHash} {peer_ids : List Nat}
    (hknows : (self.direct_request world hash peer_ids).Knows peer) : self.Knows peer :=
  hknows.of_foldl (fun _ _ => of_update_peer) peer_ids

theorem Knows.of_requeue_lost {hash : BlockHash} (hknows : (self.requeue_lost hash).Knows peer) : self.Knows peer := by
  unfold requeue_lost at hknows
  split at hknows <;> exact hknows

theorem Knows.of_redistribute {slow_pid : Nat} (hknows : (self.redistribute world slow_pid).Knows peer) :
    self.Knows peer := by
  unfold redistribute at hknows
  dsimp only at hknows
  split at hknows
  · exact hknows.of_update_peer
  · exact of_update_peer hknows.of_request_from

theorem Knows.of_steal {hash : BlockHash} {slow_pid : Nat} (hknows : (self.steal world hash slow_pid).Knows peer) :
    self.Knows peer := by
  unfold steal at hknows
  dsimp only at hknows
  split at hknows
  · exact of_update_peer hknows.of_request_blocks
  · exact of_update_peer (of_direct_request hknows.of_request_blocks)

theorem Knows.of_recover_head {hash : BlockHash} (hknows : (self.recover_head world hash).Knows peer) :
    self.Knows peer := by
  unfold recover_head at hknows
  dsimp only at hknows
  split at hknows
  · exact of_requeue_lost hknows.of_direct_request
  · split at hknows
    · split at hknows
      · exact of_requeue_lost hknows.of_redistribute
      · exact of_requeue_lost hknows.of_steal
    · exact hknows.of_requeue_lost

theorem Knows.of_try_start_next_block (hknows : (self.try_start_next_block world).Knows peer) : self.Knows peer := by
  unfold try_start_next_block at hknows
  split at hknows
  · exact hknows
  · split at hknows
    · exact hknows
    · split at hknows
      · exact hknows.of_recover_head
      · exact hknows

theorem Knows.of_check_head_of_line_stall (hknows : (self.check_head_of_line_stall world).Knows peer) :
    self.Knows peer := by
  unfold check_head_of_line_stall at hknows
  split at hknows
  · exact hknows
  · split at hknows
    · exact hknows
    · split at hknows
      · exact hknows.of_try_start_next_block
      · exact hknows.of_recover_head

theorem Knows.of_drop_stalled {peer_id : Nat} (hknows : (self.drop_stalled peer_id).Knows peer) : self.Knows peer := by
  unfold drop_stalled at hknows
  split at hknows
  · exact hknows
  · next state hstate => exact hknows.of_insert rfl hstate

theorem Knows.of_kick_idle_peers (hknows : (self.kick_idle_peers world).Knows peer) : self.Knows peer := by
  unfold kick_idle_peers at hknows
  split at hknows
  · exact hknows
  · exact hknows.of_request_from

theorem mem_of_mem_erase {states : HashMap Nat PeerSyncState} {peer_ids : List Nat}
    (hmem : peer ∈ peer_ids.foldl (fun states peer_id => states.erase peer_id) states) : peer ∈ states := by
  induction peer_ids generalizing states with
  | nil => exact hmem
  | cons peer_id peer_ids ih => exact (AList.mem_erase.mp (ih hmem)).2

theorem Knows.of_reconnect (hknows : (self.reconnect world).Knows peer) : self.Knows peer := by
  unfold reconnect at hknows
  split at hknows
  · exact mem_of_mem_erase hknows
  · exact hknows

theorem Knows.of_check_stalled_peers (hknows : (self.check_stalled_peers world).Knows peer) : self.Knows peer :=
  of_foldl (fun _ _ => of_drop_stalled) _ (of_check_head_of_line_stall (of_kick_idle_peers (of_reconnect hknows)))

theorem Knows.of_accept_results {tip_height_skip : Nat} {results : List (Except String Bool × BlockHash)}
    (hknows : (accept_results tip_height_skip results self).2.Knows peer) : self.Knows peer := by
  induction results generalizing self with
  | nil => exact hknows
  | cons result results ih =>
    obtain ⟨_ | _, hash⟩ := result
    · exact hknows
    · have hpushed : (self.push_header tip_height_skip hash).Knows peer := ih hknows
      unfold push_header at hpushed
      dsimp only at hpushed
      split at hpushed <;> exact hpushed

theorem Knows.of_handle_headers {peer_id : Nat} {headers : List (List UInt8)}
    (hknows : (self.handle_headers world hash256 peer_id headers).Knows peer) : self.Knows peer := by
  have hforward : ∀ tip_height_skip, (self.fast_forward tip_height_skip).Knows peer → self.Knows peer := by
    intro tip_height_skip hknows
    unfold fast_forward at hknows
    split at hknows <;> exact hknows
  unfold handle_headers at hknows
  split at hknows
  · split at hknows
    · exact hknows
    · exact hknows.of_request_from
  · split at hknows
    · exact hknows.of_update_peer
    · dsimp only at hknows
      split at hknows
      · next after hresults =>
        have hafter : (false, after).2.Knows peer := hknows.of_update_peer
        rw [← hresults] at hafter
        exact hforward _ hafter.of_accept_results
      · next after hresults =>
        have hstarted : (if (!after.block_download_started && !after.blocks_to_download.isEmpty) = true then
            { after with block_download_started := true }.start_block_download world else after).Knows peer := by
          split at hknows
          · exact hknows
          · exact hknows.of_request_from
        have hafter : (true, after).2.Knows peer := by
          split at hstarted
          · exact hstarted.of_request_from
          · exact hstarted
        rw [← hresults] at hafter
        exact hforward _ hafter.of_accept_results

theorem Knows.of_process_directly {peer_id : Nat} {data : List UInt8}
    (hknows : (self.process_directly world peer_id data).Knows peer) : self.Knows peer := by
  unfold process_directly at hknows
  dsimp only at hknows
  split at hknows
  · exact hknows
  · split at hknows
    · exact hknows
    · exact hknows.of_update_peer
  · exact hknows

theorem Knows.of_handle_block {peer_id : Nat} {data : List UInt8}
    (hknows : (self.handle_block world hash256 peer_id data).Knows peer) : self.Knows peer := by
  have hmark : ∀ hash, (self.mark_downloaded world peer_id hash).Knows peer → self.Knows peer :=
    fun hash hknows => @of_update_peer { self with blocks_downloaded := insert hash self.blocks_downloaded } _ _ _
      hknows.of_request_blocks
  unfold handle_block at hknows
  split at hknows
  · dsimp only at hknows
    split at hknows
    · exact hmark _ hknows.of_try_start_next_block
    · exact hmark _ hknows.of_process_directly
  · exact hknows.of_process_directly

theorem Knows.of_handle_message {peer_id : Nat} {message : NetMessage}
    (hknows : (self.handle_message world hash256 peer_id message).Knows peer) : self.Knows peer := by
  have hinv : ∀ inv, (self.handle_inv peer_id inv).Knows peer → self.Knows peer := by
    intro inv hknows
    unfold handle_inv at hknows
    split at hknows
    · exact hknows.of_update_peer
    · exact hknows
  cases message with
  | Headers headers => exact hknows.of_handle_headers
  | Block data => exact hknows.of_handle_block
  | Inv inv => exact hinv inv hknows
  | GetData inv => exact hinv inv hknows
  | FeeFilter fee =>
    rw [handle_message] at hknows
    split at hknows
    · exact hknows
    · exact hknows.of_update_peer
  | NotFound inv => exact hknows.of_update_peer
  | other => exact hknows

theorem Knows.of_disconnected {peer_id : Nat} (hknows : (self.disconnected world peer_id).Knows peer) :
    self.Knows peer := by
  unfold disconnected at hknows
  dsimp only at hknows
  have herased : (({ self with
      blocks_to_download := self.in_flight_of peer_id ++ self.blocks_to_download
      peer_states := self.peer_states.erase peer_id } : NetProcessor)).Knows peer := by
    split at hknows
    · exact hknows
    · exact hknows.of_request_from
  exact (AList.mem_erase.mp herased).2

theorem Knows.of_handle_results (hknows : (self.handle_results world).Knows peer) : self.Knows peer := by
  unfold handle_results at hknows
  split at hknows
  · exact hknows
  · dsimp only at hknows
    split at hknows
    · exact hknows.of_try_start_next_block
    · exact hknows

theorem in_flight_of_handshake_complete (self : NetProcessor) (peer_id : Nat) :
    (self.handshake_complete peer_id).in_flight_of peer_id = [] := by
  rw [in_flight_of, handshake_complete, AList.lookup_insert]
  rfl

theorem created_by_handshake {event : Event} (hbefore : ¬ self.Knows peer)
    (hafter : (self.turn world hash256 event).Knows peer) : event = .HandshakeComplete peer := by
  cases event with
  | HandshakeComplete peer_id =>
    rw [Knows, turn, handshake_complete, AList.mem_insert] at hafter
    rcases hafter with rfl | hmem
    · rfl
    · exact absurd hmem hbefore
  | MessageReceived peer_id message => exact absurd hafter.of_handle_message hbefore
  | Disconnected peer_id => exact absurd hafter.of_disconnected hbefore
  | block_result => exact absurd hafter.of_handle_results hbefore
  | tick => exact absurd hafter.of_try_start_next_block.of_check_stalled_peers hbefore

end NetProcessor

end qubitcoin.net_processing

namespace qubitcoin.connection

/-- The part of a message that the download of blocks looks at. -/
def to_message : NetMessage → net_processing.NetMessage
  | .Headers headers => .Headers headers
  | .Block data => .Block data
  | .Inv inv => .Inv inv
  | .GetData inv => .GetData inv
  | .FeeFilter fee => .FeeFilter fee.toInt
  | .NotFound inv => .NotFound inv
  | _ => .other

/-- The event that reaches the processor of messages. -/
def ConnectionEvent.to_event (peer_id : Nat) : ConnectionEvent → net_processing.Event
  | .HandshakeComplete => .HandshakeComplete peer_id
  | .MessageReceived message => .MessageReceived peer_id (to_message message)
  | .Disconnected _ => .Disconnected peer_id

/-- The event on which the processor creates the sync state of a peer, with nothing in flight. -/
def creates_state : net_processing.Event → Bool
  | .HandshakeComplete _ => true
  | _ => false

variable (config : Config)

/-- The events of the messages of a connection, one after the other, up to one that ends it. -/
def conversation : List NetMessage → List ConnectionEvent
  | [] => []
  | message :: rest =>
    let (events, goes_on) := handle_message config message
    events ++ if goes_on then conversation rest else []

/-- The version is not too old, and the nonce is not that of this node. -/
def Acceptable (ver : VersionMessage) : Prop := MIN_PEER_PROTO_VERSION ≤ ver.version ∧ ver.nonce ≠ config.local_nonce

/-- The handshake is completed, and the sync state of the peer is created, once at most, and
    after an acceptable version message. -/
structure HandshakeSafe (events : List ConnectionEvent) : Prop where
  once : ∀ peer_id, (events.map (ConnectionEvent.to_event peer_id)).countP creates_state ≤ 1
  after_version : ∀ before after, events = before ++ .HandshakeComplete :: after →
    ∃ ver, Acceptable config ver ∧ .MessageReceived (.Version ver) ∈ before

def is_verack : NetMessage → Bool
  | .Verack => true
  | _ => false

/-- The peer sends one verack at most, and an acceptable version before it. -/
structure Orderly (messages : List NetMessage) : Prop where
  once : messages.countP is_verack ≤ 1
  after_version : ∀ before after, messages = before ++ .Verack :: after →
    ∃ ver, Acceptable config ver ∧ .Version ver ∈ before

variable {config}

/-- The events of a message that does not end the connection. -/
def message_events : NetMessage → List ConnectionEvent
  | .Verack => [.HandshakeComplete, .MessageReceived .Verack]
  | message => [.MessageReceived message]

theorem mem_message_events {message other : NetMessage} :
    .MessageReceived other ∈ message_events message ↔ other = message := by
  cases message <;> simp [message_events]

theorem message_events_cases (message : NetMessage) :
    message = .Verack ∨ message_events message = [.MessageReceived message] := by
  cases message with
  | Verack => exact .inl rfl
  | _ => exact .inr rfl

theorem handle_message_accepted {message : NetMessage} (haccepted : refused config message = false) :
    handle_message config message = (message_events message, true) := by
  cases message with
  | Version ver =>
    rw [refused, Option.isSome_eq_false_iff, Option.isNone_iff_eq_none] at haccepted
    rw [handle_message, haccepted]
    rfl
  | _ => rfl

theorem handle_message_refused {message : NetMessage} (hrefused : refused config message = true) :
    ∃ reason, handle_message config message = ([.Disconnected reason], false) := by
  cases message with
  | Version ver =>
    rw [refused, Option.isSome_iff_exists] at hrefused
    obtain ⟨reason, hreason⟩ := hrefused
    exact ⟨reason, by rw [handle_message, hreason]⟩
  | _ => cases hrefused

theorem conversation_eq (messages : List NetMessage) : ∃ ending, (ending = [] ∨ ∃ reason, ending = [.Disconnected reason]) ∧
    conversation config messages = (accepted config messages).flatMap message_events ++ ending := by
  induction messages with
  | nil => exact ⟨[], .inl rfl, rfl⟩
  | cons message rest ih =>
    obtain ⟨ending, hending, hrest⟩ := ih
    cases hmessage : refused config message with
    | true =>
      obtain ⟨reason, hreason⟩ := handle_message_refused hmessage
      refine ⟨[.Disconnected reason], .inr ⟨reason, rfl⟩, ?_⟩
      rw [conversation, hreason, accepted_cons, hmessage]
      rfl
    | false =>
      refine ⟨ending, hending, ?_⟩
      rw [conversation, handle_message_accepted hmessage, accepted_cons, hmessage, if_neg Bool.false_ne_true,
        List.flatMap_cons, List.append_assoc, ← hrest]
      rfl

theorem countP_flatMap_message_events (peer_id : Nat) (messages : List NetMessage) :
    ((messages.flatMap message_events).map (ConnectionEvent.to_event peer_id)).countP creates_state =
      messages.countP is_verack := by
  induction messages with
  | nil => rfl
  | cons message rest ih =>
    rw [List.flatMap_cons, List.map_append, List.countP_append, ih, List.countP_cons]
    rw [Nat.add_comm]
    cases message <;> rfl

theorem split_at_handshake {messages : List NetMessage} {ending before after : List ConnectionEvent}
    (hending : ending = [] ∨ ∃ reason, ending = [.Disconnected reason])
    (hsplit : messages.flatMap message_events ++ ending = before ++ .HandshakeComplete :: after) :
    ∃ first rest, messages = first ++ .Verack :: rest ∧ before = first.flatMap message_events := by
  induction messages generalizing before with
  | nil =>
    have hmem : ConnectionEvent.HandshakeComplete ∈ ending := by
      rw [List.flatMap_nil, List.nil_append] at hsplit
      rw [hsplit]
      exact List.mem_append_right _ List.mem_cons_self
    rcases hending with rfl | ⟨reason, rfl⟩
    · cases hmem
    · cases List.mem_singleton.mp hmem
  | cons message rest ih =>
    rw [List.flatMap_cons, List.append_assoc] at hsplit
    rcases message_events_cases message with rfl | hevents
    · -- A verack has two events, of which the first is the handshake.
      cases before with
      | nil => exact ⟨[], rest, rfl, rfl⟩
      | cons event before =>
        obtain ⟨hfirst, hrest⟩ := List.cons.inj hsplit
        cases before with
        | nil => cases (List.cons.inj hrest).1
        | cons other before =>
          obtain ⟨hsecond, hlast⟩ := List.cons.inj hrest
          obtain ⟨first, last, rfl, rfl⟩ := ih hlast
          exact ⟨.Verack :: first, last, rfl, by rw [← hfirst, ← hsecond]; rfl⟩
    · rw [hevents] at hsplit
      cases before with
      | nil => cases (List.cons.inj hsplit).1
      | cons event before =>
        obtain ⟨hfirst, hrest⟩ := List.cons.inj hsplit
        obtain ⟨first, last, rfl, rfl⟩ := ih hrest
        exact ⟨message :: first, last, rfl, by rw [List.flatMap_cons, hevents, ← hfirst]; rfl⟩

theorem safe_iff_orderly {messages : List NetMessage} {ending : List ConnectionEvent}
    (hending : ending = [] ∨ ∃ reason, ending = [.Disconnected reason]) :
    HandshakeSafe config (messages.flatMap message_events ++ ending) ↔ Orderly config messages := by
  have hcount : ∀ peer_id, ((messages.flatMap message_events ++ ending).map
      (ConnectionEvent.to_event peer_id)).countP creates_state = messages.countP is_verack := by
    intro peer_id
    have hzero : (ending.map (ConnectionEvent.to_event peer_id)).countP creates_state = 0 := by
      rcases hending with rfl | ⟨reason, rfl⟩ <;> rfl
    rw [List.map_append, List.countP_append, countP_flatMap_message_events, hzero]
    rfl
  constructor
  · intro hsafe
    refine ⟨(hcount 0).symm.trans_le (hsafe.once 0), fun before after hsplit => ?_⟩
    have hevents : messages.flatMap message_events ++ ending = before.flatMap message_events ++
        .HandshakeComplete :: (.MessageReceived .Verack :: after.flatMap message_events ++ ending) := by
      rw [hsplit, List.flatMap_append, List.append_assoc]
      rfl
    obtain ⟨ver, hver, hmem⟩ := hsafe.after_version _ _ hevents
    obtain ⟨message, hmessage, hevent⟩ := List.mem_flatMap.mp hmem
    rw [← mem_message_events.mp hevent] at hmessage
    exact ⟨ver, hver, hmessage⟩
  · intro horderly
    refine ⟨fun peer_id => (hcount peer_id).trans_le horderly.once, fun before after hsplit => ?_⟩
    obtain ⟨first, rest, hfirst, rfl⟩ := split_at_handshake hending hsplit
    obtain ⟨ver, hver, hmem⟩ := horderly.after_version first rest hfirst
    exact ⟨ver, hver, List.mem_flatMap.mpr ⟨_, hmem, mem_message_events.mpr rfl⟩⟩

theorem received_flatMap_message_events (messages : List NetMessage) :
    received (messages.flatMap message_events) = messages := by
  induction messages with
  | nil => rfl
  | cons message rest ih =>
    rw [List.flatMap_cons, received, List.filterMap_append]
    refine Eq.trans (congrArg (_ ++ ·) ih) ?_
    cases message <;> rfl

/-- The events are those of messages, and the end of the connection where it has ended. -/
def Talked (self : Connection) : Prop :=
  ∃ (messages : List NetMessage) (ending : List ConnectionEvent),
    self.events = messages.flatMap message_events ++ ending ∧
    (ending = [] ∨ self.reading = .closed ∧ ∃ reason, ending = [.Disconnected reason])

variable {self : Connection}

theorem Talked.open_events (htalked : Talked self) (hopen : self.reading ≠ .closed) :
    ∃ messages : List NetMessage, self.events = messages.flatMap message_events := by
  obtain ⟨messages, ending, hevents, rfl | ⟨hclosed, -⟩⟩ := htalked
  · exact ⟨messages, by rw [hevents, List.append_nil]⟩
  · exact absurd hclosed hopen

theorem Talked.close {messages : List NetMessage} (hevents : self.events = messages.flatMap message_events)
    (reason : String) : Talked (self.close reason) :=
  ⟨messages, [.Disconnected reason], congrArg (· ++ _) hevents, .inr ⟨rfl, reason, rfl⟩⟩

theorem Talked.on_payload {messages : List NetMessage} (hevents : self.events = messages.flatMap message_events)
    (header : MessageHeader) (payload : Bytes) : Talked (self.on_payload config header payload) := by
  unfold Connection.on_payload
  split
  · dsimp only
    generalize parse_message header.command_str payload = message
    cases hmessage : refused config message with
    | true =>
      obtain ⟨reason, hreason⟩ := handle_message_refused hmessage
      rw [hreason]
      exact ⟨messages, [.Disconnected reason], congrArg (· ++ _) hevents, .inr ⟨rfl, reason, rfl⟩⟩
    | false =>
      rw [handle_message_accepted hmessage]
      refine ⟨messages ++ [message], [], ?_, .inl rfl⟩
      dsimp only
      rw [hevents, List.flatMap_append, List.flatMap_singleton, List.append_nil]
  · exact Talked.close hevents _

theorem Talked.read (htalked : Talked self) : Talked (self.read config) := by
  unfold Connection.read
  split
  · next taken hreading =>
    obtain ⟨messages, hevents⟩ := htalked.open_events (by rw [hreading]; exact nofun)
    dsimp only
    split
    · exact ⟨messages, [], hevents.trans (List.append_nil _).symm, .inl rfl⟩
    · unfold Connection.on_header
      split
      · exact Talked.close hevents _
      · split
        · exact Talked.close hevents _
        · split
          · apply Talked.on_payload
            exact hevents
          · exact ⟨messages, [], hevents.trans (List.append_nil _).symm, .inl rfl⟩
  · next header taken hreading =>
    obtain ⟨messages, hevents⟩ := htalked.open_events (by rw [hreading]; exact nofun)
    dsimp only
    split
    · exact ⟨messages, [], hevents.trans (List.append_nil _).symm, .inl rfl⟩
    · apply Talked.on_payload
      exact hevents
  · exact htalked

theorem Talked.step (htalked : Talked self) (move : Move) : Talked (self.step config move) := by
  cases move with
  | arrives chunk => exact htalked
  | fires => exact htalked
  | reads => exact htalked.read
  | ticks =>
    rw [Connection.step, Connection.keepalive]
    split
    · next taken hreading =>
      split
      · obtain ⟨messages, hevents⟩ := htalked.open_events (by rw [hreading]; intro hclosed; cases hclosed)
        exact ⟨messages, [], hevents.trans (List.append_nil _).symm, .inl rfl⟩
      · exact htalked
    · exact htalked

theorem talked_run (config : Config) (moves : List Move) : Talked (Connection.run config moves) := by
  induction moves using List.reverseRecOn with
  | nil => exact ⟨[], [], rfl, .inl rfl⟩
  | append_singleton moves move ih =>
    rw [Connection.run, List.foldl_append]
    exact Talked.step ih move

/-- The handshake is safe exactly when the peer is orderly up to the end of the connection: for
    the messages of a peer, and for those that a run of the loop delivers. The loop itself
    neither waits for the version nor remembers the verack. What the processor creates a sync
    state on is the handshake alone, and what was in flight is gone then. -/
theorem handshake_safe_iff (config : Config) :
    (∀ messages, HandshakeSafe config (conversation config messages) ↔ Orderly config (accepted config messages)) ∧
    (∀ moves, HandshakeSafe config (Connection.run config moves).events ↔
      Orderly config (received (Connection.run config moves).events)) ∧
    ∀ (self : net_processing.NetProcessor) world event peer_id,
      (¬ self.Knows peer_id → (self.turn world config.hash256 event).Knows peer_id →
        event = .HandshakeComplete peer_id) ∧
      (self.turn world config.hash256 (.HandshakeComplete peer_id)).in_flight_of peer_id = [] := by
  refine ⟨fun messages => ?_, fun moves => ?_, fun self world event peer_id => ⟨?_, ?_⟩⟩
  · obtain ⟨ending, hending, hevents⟩ := @conversation_eq config messages
    rw [hevents]
    exact safe_iff_orderly hending
  · obtain ⟨messages, ending, hevents, hend⟩ := talked_run config moves
    have hending : ending = [] ∨ ∃ reason, ending = [.Disconnected reason] := hend.imp_right And.right
    have hreceived : received (Connection.run config moves).events = messages := by
      have hnone : received ending = [] := by
        rcases hending with rfl | ⟨reason, rfl⟩ <;> rfl
      rw [hevents, received, List.filterMap_append]
      exact (congrArg₂ (· ++ ·) (received_flatMap_message_events messages) hnone).trans (List.append_nil _)
    rw [hreceived, hevents]
    exact safe_iff_orderly hending
  · exact net_processing.NetProcessor.created_by_handshake
  · exact self.in_flight_of_handshake_complete peer_id

/-- Two veracks and no version: the handshake is completed twice. The second time the block that
    the peer had in flight is forgotten; it is not queued either. -/
theorem handshake_repeated :
    ¬ HandshakeSafe mainnet_config (conversation mainnet_config [.Verack, .Verack]) ∧
    (net_processing.NetProcessor.run crypto.sha256d 0 (net_processing.NetProcessor.zero_delivery.take 2)).in_flight_of 1 =
      [crypto.sha256d (List.replicate 80 0)] ∧
    (net_processing.NetProcessor.run crypto.sha256d 0 (net_processing.NetProcessor.zero_delivery.take 2 ++
      [(net_processing.NetProcessor.accepting_world, .wake (.HandshakeComplete 1))])).in_flight_of 1 = [] ∧
    (net_processing.NetProcessor.run crypto.sha256d 0 (net_processing.NetProcessor.zero_delivery.take 2 ++
      [(net_processing.NetProcessor.accepting_world, .wake (.HandshakeComplete 1))])).blocks_to_download = [] := by
  refine ⟨fun hsafe => absurd (hsafe.once 1) (by decide), ?_⟩
  decide +kernel

end qubitcoin.connection
