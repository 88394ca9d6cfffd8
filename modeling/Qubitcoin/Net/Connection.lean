import Qubitcoin.Lib.Trace
import Qubitcoin.Net.Message
import Qubitcoin.Crypto.Sha256

/-! `qubitcoin-net/connection.rs`: the loop that reads the messages of a peer, and the handshake.
    What is sent to the peer is not recorded. -/

open qubitcoin primitives protocol transition

namespace qubitcoin.protocol

structure MessageHeader where
  magic : List UInt8
  command : List UInt8
  payload_size : UInt32
  checksum : List UInt8
  deriving DecidableEq

def MessageHeader.deserialize (data : List UInt8) : MessageHeader where
  magic := data.take 4
  command := (data.drop 4).take 12
  payload_size := connection.u32_from_bytes ((data.drop 16).take 4)
  checksum := (data.drop 20).take 4

/-- The command without its padding; it is empty where it is not a string. -/
def MessageHeader.command_str (self : MessageHeader) : String :=
  (utf8.ofBytes? (self.command.takeWhile (· ≠ 0))).getD ""

def MessageHeader.verify_checksum (hash256 : List UInt8 → Uint256) (self : MessageHeader) (payload : List UInt8) : Bool :=
  self.checksum == (hash256 payload).data.take 4

end qubitcoin.protocol

namespace qubitcoin.connection

/-- What the loop reports. -/
inductive ConnectionEvent where
  | HandshakeComplete
  | MessageReceived (message : NetMessage)
  | Disconnected (reason : String)

/-- The hash function, the magic bytes of the network and the nonce of this node. -/
structure Config where
  hash256 : List UInt8 → Uint256
  magic : Bytes
  local_nonce : UInt64

variable (config : Config)

/-- Why a version message ends the connection, if it does. -/
def refusal (ver : VersionMessage) : Option String :=
  if ver.version < MIN_PEER_PROTO_VERSION then some "obsolete version"
  else if ver.nonce = config.local_nonce ∧ ver.nonce ≠ 0 then some "self-connection"
  else none

/-- The events of a message, and whether the loop goes on. -/
def handle_message : NetMessage → List ConnectionEvent × Bool
  | .Version ver =>
    match refusal config ver with
    | some reason => ([.Disconnected reason], false)
    | none => ([.MessageReceived (.Version ver)], true)
  | .Verack => ([.HandshakeComplete, .MessageReceived .Verack], true)
  | message => ([.MessageReceived message], true)

/-- Where the loop is: in the `select!`, with the bytes that its `read_exact` of the header has
    taken so far, or in the `read_exact` of a payload, or at its end. -/
inductive Reading where
  | header (taken : Bytes)
  | payload (header : MessageHeader) (taken : Bytes)
  | closed
  deriving DecidableEq

/-- The loop, the bytes that have arrived and are not read, and whether the keepalive timer has
    a tick. -/
structure Connection where
  reading : Reading
  socket : Bytes
  tick : Bool
  events : List ConnectionEvent

namespace Connection

def new : Connection := ⟨.header [], [], false, []⟩

variable (self : Connection)

def close (reason : String) : Connection :=
  { self with reading := .closed, events := self.events ++ [.Disconnected reason] }

def on_payload (header : MessageHeader) (payload : Bytes) : Connection :=
  if header.verify_checksum config.hash256 payload then
    let (events, goes_on) := handle_message config (parse_message header.command_str payload)
    { self with reading := if goes_on then .header [] else .closed, events := self.events ++ events }
  else self.close "bad checksum"

def on_header (header : MessageHeader) : Connection :=
  if header.magic ≠ config.magic then self.close "bad magic"
  else if header.payload_size.toNat > MAX_PAYLOAD_SIZE then self.close "payload too large"
  else if header.payload_size.toNat = 0 then self.on_payload config header []
  else { self with reading := .payload header [] }

/-- `read_exact` takes what has arrived, up to what it waits for. -/
def read : Connection :=
  match self.reading with
  | .header taken =>
    let taken' := taken ++ self.socket.take (24 - taken.length)
    let self := { self with socket := self.socket.drop (24 - taken.length) }
    if taken'.length < 24 then { self with reading := .header taken' }
    else self.on_header config (.deserialize taken')
  | .payload header taken =>
    let taken' := taken ++ self.socket.take (header.payload_size.toNat - taken.length)
    let self := { self with socket := self.socket.drop (header.payload_size.toNat - taken.length) }
    if taken'.length < header.payload_size.toNat then { self with reading := .payload header taken' }
    else self.on_payload config header taken'
  | .closed => self

/-- The branch of the timer. The read that did not finish first is dropped, with the bytes it
    has taken. -/
def keepalive : Connection :=
  match self.reading with
  | .header _ => if self.tick then { self with reading := .header [], tick := false } else self
  | _ => self

end Connection

/-- What happens next: bytes arrive, the timer fires, a read makes progress, or the branch of
    the timer is taken. -/
inductive Move where
  | arrives (chunk : Bytes)
  | fires
  | reads
  | ticks

def Connection.step (self : Connection) : Move → Connection
  | .arrives chunk => { self with socket := self.socket ++ chunk }
  | .fires => { self with tick := true }
  | .reads => self.read config
  | .ticks => self.keepalive

def Connection.run (moves : List Move) : Connection := moves.foldl (fun self move => self.step config move) .new

def sent (moves : List Move) : Bytes :=
  moves.flatMap fun move =>
    match move with
    | .arrives chunk => chunk
    | _ => []

def received (events : List ConnectionEvent) : List NetMessage :=
  events.filterMap fun event =>
    match event with
    | .MessageReceived message => some message
    | _ => none

/-- The messages of a stream up to the first framing error or the end: a header, a payload of
    the announced size, and its checksum. -/
def frames (stream : Bytes) : List NetMessage :=
  if stream.length < 24 then []
  else
    let header := MessageHeader.deserialize (stream.take 24)
    let rest := stream.drop 24
    if header.magic ≠ config.magic ∨ header.payload_size.toNat > MAX_PAYLOAD_SIZE ∨
        rest.length < header.payload_size.toNat ∨
        ¬ header.verify_checksum config.hash256 (rest.take header.payload_size.toNat) = true then []
    else parse_message header.command_str (rest.take header.payload_size.toNat) ::
      frames (rest.drop header.payload_size.toNat)
termination_by stream.length
decreasing_by
  simp only [List.length_drop]
  omega

/-- A version message that ends the connection. -/
def refused : NetMessage → Bool
  | .Version ver => (refusal config ver).isSome
  | _ => false

/-- The messages up to one that ends the connection. -/
def accepted (messages : List NetMessage) : List NetMessage := messages.takeWhile fun message => !refused config message

theorem accepted_cons (message : NetMessage) (rest : List NetMessage) : accepted config (message :: rest) =
    if refused config message then [] else message :: accepted config rest := by
  rw [accepted, List.takeWhile_cons]
  cases refused config message <;> rfl

end qubitcoin.connection
