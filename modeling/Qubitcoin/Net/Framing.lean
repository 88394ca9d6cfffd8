import Qubitcoin.Net.Connection

/-! The messages that the loop delivers, over any cut of the stream into chunks and any ticks. -/

open qubitcoin primitives protocol transition

namespace qubitcoin.connection

variable {config : Config}

theorem frames_short {stream : Bytes} (hshort : stream.length < 24) : frames config stream = [] := by
  rw [frames, if_pos hshort]

section

variable {raw : Bytes} (hraw : raw.length = 24)

include hraw

theorem frames_bad_header {rest : Bytes} (hbad : (MessageHeader.deserialize raw).magic ≠ config.magic ∨
    (MessageHeader.deserialize raw).payload_size.toNat > MAX_PAYLOAD_SIZE) : frames config (raw ++ rest) = [] := by
  rw [frames, if_neg (by rw [List.length_append]; omega), List.take_left' hraw, List.drop_left' hraw]
  exact if_pos (hbad.imp_right .inl)

theorem frames_cut_payload {payload : Bytes}
    (hshort : payload.length < (MessageHeader.deserialize raw).payload_size.toNat) : frames config (raw ++ payload) = [] := by
  rw [frames, if_neg (by rw [List.length_append]; omega), List.take_left' hraw, List.drop_left' hraw]
  exact if_pos (.inr (.inr (.inl hshort)))

theorem frames_frame (hmagic : (MessageHeader.deserialize raw).magic = config.magic)
    (hsize : (MessageHeader.deserialize raw).payload_size.toNat ≤ MAX_PAYLOAD_SIZE) {payload : Bytes}
    (hpayload : payload.length = (MessageHeader.deserialize raw).payload_size.toNat) (rest : Bytes) :
    frames config (raw ++ payload ++ rest) =
      if (MessageHeader.deserialize raw).verify_checksum config.hash256 payload then
        parse_message (MessageHeader.deserialize raw).command_str payload :: frames config rest
      else [] := by
  rw [List.append_assoc, frames, if_neg (by rw [List.length_append]; omega), List.take_left' hraw, List.drop_left' hraw]
  dsimp only
  rw [List.take_left' hpayload, List.drop_left' hpayload]
  cases hverify : (MessageHeader.deserialize raw).verify_checksum config.hash256 payload with
  | true =>
    rw [if_neg, if_pos rfl]
    rintro (hbad | hbad | hbad | hbad)
    · exact hbad hmagic
    · exact absurd hsize (Nat.not_le.mpr hbad)
    · rw [List.length_append] at hbad
      omega
    · exact hbad rfl
  | false =>
    rw [if_pos (.inr (.inr (.inr Bool.false_ne_true))), if_neg Bool.false_ne_true]

end

/-- The bytes from the start of a frame that the loop has taken and not dealt with. -/
inductive Holds (config : Config) : Reading → Bytes → Prop where
  | header {taken : Bytes} (hshort : taken.length < 24) : Holds config (.header taken) taken
  | payload {raw taken : Bytes} (hraw : raw.length = 24) (hmagic : (MessageHeader.deserialize raw).magic = config.magic)
      (hsize : (MessageHeader.deserialize raw).payload_size.toNat ≤ MAX_PAYLOAD_SIZE)
      (hshort : taken.length < (MessageHeader.deserialize raw).payload_size.toNat) :
      Holds config (.payload (.deserialize raw) taken) (raw ++ taken)

theorem Holds.frames_eq_nil {reading : Reading} {bytes : Bytes} (hholds : Holds config reading bytes) :
    frames config bytes = [] := by
  cases hholds with
  | header hshort => exact frames_short hshort
  | payload hraw _ _ hshort => exact frames_cut_payload hraw hshort

/-- Whatever comes after the bytes of a stream, its messages are those delivered so far and the
    ones from the current frame on; after the end there are no more. -/
inductive Framed (config : Config) (stream : Bytes) (self : Connection) : Prop where
  | reading {bytes : Bytes} (hholds : Holds config self.reading bytes)
      (hframes : ∀ more, accepted config (frames config (stream ++ more)) =
        received self.events ++ accepted config (frames config (bytes ++ (self.socket ++ more))))
  | closed (hclosed : self.reading = .closed)
      (hframes : ∀ more, accepted config (frames config (stream ++ more)) = received self.events)

theorem received_append (events more : List ConnectionEvent) :
    received (events ++ more) = received events ++ received more := List.filterMap_append

theorem handle_message_spec (message : NetMessage) :
    received (handle_message config message).1 = (if refused config message then [] else [message]) ∧
      (handle_message config message).2 = !refused config message := by
  cases message with
  | Version ver =>
    rw [handle_message, refused]
    cases refusal config ver with
    | none => exact ⟨rfl, rfl⟩
    | some reason => exact ⟨rfl, rfl⟩
  | _ => exact ⟨rfl, rfl⟩

variable {stream : Bytes} {self : Connection}

theorem Framed.close {reason : String}
    (hframes : ∀ more, accepted config (frames config (stream ++ more)) = received self.events) :
    Framed config stream (self.close reason) := by
  refine .closed rfl fun more => ?_
  rw [hframes, Connection.close, received_append]
  exact (List.append_nil _).symm

theorem Framed.on_payload {raw payload : Bytes} (hraw : raw.length = 24)
    (hmagic : (MessageHeader.deserialize raw).magic = config.magic)
    (hsize : (MessageHeader.deserialize raw).payload_size.toNat ≤ MAX_PAYLOAD_SIZE)
    (hpayload : payload.length = (MessageHeader.deserialize raw).payload_size.toNat)
    (hframes : ∀ more, accepted config (frames config (stream ++ more)) =
      received self.events ++ accepted config (frames config (raw ++ payload ++ (self.socket ++ more)))) :
    Framed config stream (self.on_payload config (.deserialize raw) payload) := by
  unfold Connection.on_payload
  split
  · next hverify =>
    obtain ⟨hreceived, hgoes⟩ :=
      @handle_message_spec config (parse_message (MessageHeader.deserialize raw).command_str payload)
    dsimp only
    rw [hgoes]
    have hnext : ∀ more, accepted config (frames config (stream ++ more)) = received self.events ++
        accepted config (parse_message (MessageHeader.deserialize raw).command_str payload ::
          frames config (self.socket ++ more)) := by
      intro more
      rw [hframes, frames_frame hraw hmagic hsize hpayload, if_pos hverify]
    cases hrefused : refused config (parse_message (MessageHeader.deserialize raw).command_str payload) with
    | true =>
      refine .closed rfl fun more => ?_
      rw [hnext, accepted_cons, hrefused, if_pos rfl]
      dsimp only
      rw [received_append, hreceived, hrefused, if_pos rfl]
    | false =>
      refine .reading (.header (show ([] : Bytes).length < 24 by decide)) fun more => ?_
      rw [hnext, accepted_cons, hrefused, if_neg Bool.false_ne_true]
      dsimp only
      rw [received_append, hreceived, hrefused, if_neg Bool.false_ne_true, List.append_assoc]
      rfl
  · next hverify =>
    refine Framed.close fun more => ?_
    rw [hframes, frames_frame hraw hmagic hsize hpayload, if_neg hverify]
    exact List.append_nil _

theorem Framed.on_header {raw : Bytes} (hraw : raw.length = 24)
    (hframes : ∀ more, accepted config (frames config (stream ++ more)) =
      received self.events ++ accepted config (frames config (raw ++ (self.socket ++ more)))) :
    Framed config stream (self.on_header config (.deserialize raw)) := by
  have hbad : ((MessageHeader.deserialize raw).magic ≠ config.magic ∨
      (MessageHeader.deserialize raw).payload_size.toNat > MAX_PAYLOAD_SIZE) →
      ∀ more, accepted config (frames config (stream ++ more)) = received self.events := by
    intro hbad more
    rw [hframes, frames_bad_header hraw hbad]
    exact List.append_nil _
  unfold Connection.on_header
  split
  · next hmagic => exact Framed.close (hbad (.inl hmagic))
  · next hmagic =>
    split
    · next hlarge => exact Framed.close (hbad (.inr hlarge))
    · next hsize =>
      split
      · next hempty =>
        refine Framed.on_payload hraw (not_not.mp hmagic) (Nat.not_lt.mp hsize) hempty.symm fun more => ?_
        rw [List.append_nil]
        exact hframes more
      · next hsome =>
        refine .reading (.payload hraw (not_not.mp hmagic) (Nat.not_lt.mp hsize) ?_) fun more => ?_
        · exact Nat.pos_of_ne_zero hsome
        · rw [List.append_nil]
          exact hframes more

theorem Framed.read (hframed : Framed config stream self) : Framed config stream (self.read config) := by
  obtain ⟨reading, socket, tick, events⟩ := self
  cases hframed with
  | closed hclosed hframes =>
    dsimp only at hclosed
    subst hclosed
    exact .closed rfl hframes
  | @reading taken hholds hframes =>
    dsimp only at hholds hframes
    cases hholds with
    | header hshort =>
      have hmoved : ∀ more, taken ++ (socket ++ more) =
          taken ++ socket.take (24 - taken.length) ++ (socket.drop (24 - taken.length) ++ more) := by
        intro more
        rw [List.append_assoc, ← List.append_assoc (socket.take _), List.take_append_drop]
      simp only [hmoved] at hframes
      have hcount : (taken ++ socket.take (24 - taken.length)).length ≤ 24 := by
        rw [List.length_append, List.length_take]
        omega
      unfold Connection.read
      dsimp only
      split
      · next hpart => exact .reading (.header hpart) hframes
      · next hwhole => exact Framed.on_header (by omega) hframes
    | @payload raw taken hraw hmagic hsize hshort =>
      have hmoved : ∀ more, raw ++ taken ++ (socket ++ more) =
          raw ++ (taken ++ socket.take ((MessageHeader.deserialize raw).payload_size.toNat - taken.length)) ++
            (socket.drop ((MessageHeader.deserialize raw).payload_size.toNat - taken.length) ++ more) := by
        intro more
        rw [List.append_assoc, List.append_assoc, List.append_assoc, ← List.append_assoc (socket.take _),
          List.take_append_drop]
      simp only [hmoved] at hframes
      have hcount : (taken ++ socket.take ((MessageHeader.deserialize raw).payload_size.toNat - taken.length)).length ≤
          (MessageHeader.deserialize raw).payload_size.toNat := by
        rw [List.length_append, List.length_take]
        omega
      unfold Connection.read
      dsimp only
      split
      · next hpart => exact .reading (.payload hraw hmagic hsize hpart) hframes
      · next hwhole => exact Framed.on_payload hraw hmagic hsize (by omega) hframes

/-- The branch of the timer is not taken while a header is read in part. -/
def Undisturbed (self : Connection) : Move → Prop
  | .ticks => self.tick = true → ∀ taken, self.reading = .header taken → taken = []
  | _ => True

theorem Framed.step (hframed : Framed config stream self) {move : Move} (hmove : Undisturbed self move) :
    Framed config (stream ++ sent [move]) (self.step config move) := by
  cases move with
  | arrives chunk =>
    have hsent : sent [.arrives chunk] = chunk := List.append_nil _
    rw [hsent]
    cases hframed with
    | closed hclosed hframes =>
      refine .closed hclosed fun more => ?_
      rw [List.append_assoc]
      exact hframes (chunk ++ more)
    | reading hholds hframes =>
      refine .reading hholds fun more => ?_
      rw [List.append_assoc, hframes (chunk ++ more), Connection.step]
      dsimp only
      rw [List.append_assoc]
  | fires =>
    rw [show sent [.fires] = [] from rfl, List.append_nil]
    cases hframed with
    | closed hclosed hframes => exact .closed hclosed hframes
    | reading hholds hframes => exact .reading hholds hframes
  | reads =>
    rw [show sent [.reads] = [] from rfl, List.append_nil]
    exact hframed.read
  | ticks =>
    rw [show sent [.ticks] = [] from rfl, List.append_nil, Connection.step]
    unfold Connection.keepalive
    split
    · next taken hreading =>
      split
      · next htick =>
        obtain rfl := hmove htick taken hreading
        cases hframed with
        | closed hclosed _ =>
          rw [hreading] at hclosed
          cases hclosed
        | reading hholds hframes =>
          rw [hreading] at hholds
          exact .reading hholds hframes
      · exact hframed
    · exact hframed

theorem framed_new : Framed config [] .new := .reading (.header (show ([] : Bytes).length < 24 by decide)) fun _ => rfl

theorem framed_run {moves : List Move} (hmoves : Allowed Undisturbed (fun self move => self.step config move) .new moves) :
    Framed config (sent moves) (Connection.run config moves) := by
  have hgrow : ∀ {start : Connection} {stream : Bytes}, Framed config stream start →
      Allowed Undisturbed (fun self move => self.step config move) start moves →
      Framed config (stream ++ sent moves) (moves.foldl (fun self move => self.step config move) start) := by
    clear hmoves
    induction moves with
    | nil =>
      intro start stream hframed _
      rw [sent, List.flatMap_nil, List.append_nil]
      exact hframed
    | cons move moves ih =>
      intro start stream hframed hmoves
      have hsplit : sent (move :: moves) = sent [move] ++ sent moves := by
        unfold sent
        rw [List.flatMap_cons, List.flatMap_singleton]
      rw [hsplit, ← List.append_assoc]
      exact ih (hframed.step hmoves.1) hmoves.2
  exact hgrow framed_new hmoves

/-- All that has arrived is read, or the loop has ended. -/
def Settled (self : Connection) : Prop := self.socket = [] ∨ self.reading = .closed

theorem Framed.settled (hframed : Framed config stream self) (hsettled : Settled self) :
    received self.events = accepted config (frames config stream) := by
  cases hframed with
  | closed _ hframes =>
    have hall := hframes []
    rw [List.append_nil] at hall
    exact hall.symm
  | reading hholds hframes =>
    rcases hsettled with hempty | hclosed
    · have hall := hframes []
      rw [hempty, List.append_nil, List.append_nil, List.append_nil, hholds.frames_eq_nil] at hall
      rw [hall]
      exact (List.append_nil _).symm
    · rw [hclosed] at hholds
      cases hholds

theorem socket_on_payload (header : MessageHeader) (payload : Bytes) :
    (self.on_payload config header payload).socket = self.socket := by
  unfold Connection.on_payload
  split <;> rfl

theorem socket_on_header (header : MessageHeader) : (self.on_header config header).socket = self.socket := by
  unfold Connection.on_header
  split
  · rfl
  · split
    · rfl
    · split
      · exact socket_on_payload header []
      · rfl

theorem Framed.read_progress (hframed : Framed config stream self) (hmore : ¬ Settled self) :
    (self.read config).socket.length < self.socket.length := by
  obtain ⟨reading, socket, tick, events⟩ := self
  have hsocket : 0 < socket.length := List.length_pos_of_ne_nil fun hnil => hmore (.inl hnil)
  cases hframed with
  | closed hclosed _ => exact absurd (.inr hclosed) hmore
  | @reading taken hholds _ =>
    dsimp only at hholds
    cases hholds with
    | header hshort =>
      unfold Connection.read
      dsimp only
      split
      · dsimp only
        rw [List.length_drop]
        omega
      · rw [socket_on_header, List.length_drop]
        omega
    | payload _ _ _ hshort =>
      unfold Connection.read
      dsimp only
      split
      · dsimp only
        rw [List.length_drop]
        omega
      · rw [socket_on_payload, List.length_drop]
        omega

theorem Framed.exists_settled (hframed : Framed config stream self) :
    ∃ n, Settled ((List.replicate n Move.reads).foldl (fun self move => self.step config move) self) := by
  generalize hlength : self.socket.length = length
  induction length using Nat.strong_induction_on generalizing self with
  | _ length ih =>
    by_cases hsettled : Settled self
    · exact ⟨0, hsettled⟩
    · have hless := hframed.read_progress hsettled
      obtain ⟨n, hn⟩ := ih _ (hlength ▸ hless) hframed.read rfl
      exact ⟨n + 1, hn⟩

/-- If no tick comes into a header, then, however the bytes are cut and whatever ticks come, the
    loop delivers the messages of the stream, up to a version message that it refuses; and it
    does come to the end of what has arrived. -/
theorem framing_undisturbed (config : Config) (moves : List Move)
    (hmoves : Allowed Undisturbed (fun self move => self.step config move) .new moves) :
    (Settled (Connection.run config moves) →
      received (Connection.run config moves).events = accepted config (frames config (sent moves)) ∧
      ((∀ message ∈ frames config (sent moves), refused config message = false) →
        received (Connection.run config moves).events = frames config (sent moves))) ∧
    ∃ n, Settled (Connection.run config (moves ++ List.replicate n .reads)) := by
  have hframed := framed_run hmoves
  refine ⟨fun hsettled => ⟨hframed.settled hsettled, fun hnone => ?_⟩, ?_⟩
  · rw [hframed.settled hsettled, accepted, List.takeWhile_eq_self_iff]
    intro message hmem
    rw [hnone message hmem]
    rfl
  · obtain ⟨n, hn⟩ := hframed.exists_settled
    refine ⟨n, ?_⟩
    rw [Connection.run, List.foldl_append]
    exact hn

def mainnet_config : Config := ⟨crypto.sha256d, [0xf9, 0xbe, 0xb4, 0xd9], 0x1122334455667788⟩

/-- A verack message on the main network. -/
def verack_bytes : Bytes :=
  [0xf9, 0xbe, 0xb4, 0xd9, 0x76, 0x65, 0x72, 0x61, 0x63, 0x6b, 0, 0, 0, 0, 0, 0, 0, 0, 0, 0, 0x5d, 0xf6, 0xe0, 0xe2]

theorem frames_verack_bytes : frames mainnet_config verack_bytes = [.Verack] := by
  have hverify : (MessageHeader.deserialize verack_bytes).verify_checksum mainnet_config.hash256 [] = true := by
    decide +kernel
  have hcommand : (MessageHeader.deserialize verack_bytes).command_str = "verack" := by
    decide +kernel
  have hlength : verack_bytes.length = 24 := rfl
  have hframe := @frames_frame mainnet_config verack_bytes hlength rfl (by decide) [] rfl []
  rw [if_pos hverify, @frames_short mainnet_config [] (by decide), hcommand, parse_message] at hframe
  exact hframe

/-- The bytes come in two chunks, and a tick after the message. -/
def quiet_moves : List Move :=
  [.arrives (verack_bytes.take 10), .reads, .arrives (verack_bytes.drop 10), .reads, .fires, .ticks]

theorem framing_undisturbed_verack :
    Allowed Undisturbed (fun self move => self.step mainnet_config move) .new quiet_moves ∧
      Settled (Connection.run mainnet_config quiet_moves) ∧
      received (Connection.run mainnet_config quiet_moves).events = [.Verack] := by
  have hreading : (Connection.run mainnet_config (quiet_moves.take 5)).reading = .header [] := by
    decide +kernel
  have hmoves : Allowed Undisturbed (fun self move => self.step mainnet_config move) .new quiet_moves := by
    refine ⟨trivial, trivial, trivial, trivial, trivial, fun _ taken htaken => ?_, trivial⟩
    exact (Reading.header.inj (hreading.symm.trans htaken)).symm
  have hsettled : Settled (Connection.run mainnet_config quiet_moves) := .inl (by decide +kernel)
  refine ⟨hmoves, hsettled, ?_⟩
  rw [((framing_undisturbed mainnet_config quiet_moves hmoves).1 hsettled).2, show sent quiet_moves = verack_bytes from rfl,
    frames_verack_bytes]
  rw [show sent quiet_moves = verack_bytes from rfl, frames_verack_bytes]
  intro message hmem
  rw [List.mem_singleton.mp hmem]
  rfl

/-- The tick comes between the two chunks. -/
def disturbed_moves : List Move :=
  [.arrives (verack_bytes.take 10), .reads, .fires, .ticks, .arrives (verack_bytes.drop 10), .reads]

/-- The first ten bytes of the header are lost. -/
theorem framing_disturbed :
    sent disturbed_moves = verack_bytes ∧ Settled (Connection.run mainnet_config disturbed_moves) ∧
      received (Connection.run mainnet_config disturbed_moves).events ≠ frames mainnet_config verack_bytes := by
  refine ⟨rfl, .inl rfl, ?_⟩
  rw [frames_verack_bytes]
  exact nofun

end qubitcoin.connection
