import Qubitcoin.Lib.Slices
import Qubitcoin.Net.Message

/-! The parser of messages as it indexes and slices the payload. -/

open qubitcoin primitives protocol
open qubitcoin.net_processing (InvType InvVect)

namespace qubitcoin.connection.indexed

open slices

/-- A number that is not too large, and how many bytes it takes. -/
def bounded (v n : Nat) : Option (Nat × Nat) := if v ≤ MAX_PAYLOAD_SIZE then some (v, n) else none

/-- A number of `n` bytes after its mark. -/
def read_wide (data : Bytes) (n : Nat) : Except Fault (Option (Nat × Nat)) :=
  if data.length < n + 1 then .ok none
  else do
    let bytes ← slice data 1 (n + 1)
    .ok ((try_into n bytes).bind fun bytes => bounded (littleEndian.ofBytes bytes) (n + 1))

/-- A number and how many bytes it takes. -/
def read_varint (data : Bytes) : Except Fault (Option (Nat × Nat)) :=
  if data.isEmpty then .ok none
  else do
    let first ← index data 0
    if first = 0xff then read_wide data 8
    else if first = 0xfe then read_wide data 4
    else if first = 0xfd then read_wide data 2
    else .ok (some (first.toNat, 1))

def ip_of_bytes (ip_bytes : Bytes) : Except Fault IpAddr := do
  let front ← slice ip_bytes 0 12
  if front = ipv4_prefix then
    let a ← index ip_bytes 12
    let b ← index ip_bytes 13
    let c ← index ip_bytes 14
    let d ← index ip_bytes 15
    .ok (.V4 #v[a, b, c, d])
  else .ok (.V6 (octets 16 ip_bytes))

def deserialize_net_address (data : Bytes) : OptionT (Except Fault) NetAddress :=
  if data.length < 26 then failure
  else do
    let services ← access (slice data 0 8)
    let services ← attempt (try_into 8 services)
    let ip_bytes ← access (slice data 8 24)
    let ip_bytes ← attempt (try_into 16 ip_bytes)
    let ip ← access (ip_of_bytes ip_bytes)
    let high ← access (index data 24)
    let low ← access (index data 25)
    pure { services := .from_bits_truncate (u64_from_bytes services), ip, port := u16_from_be_bytes [high, low] }

/-- User agent, start height and the flag for relaying, after the numbers and the addresses. -/
def deserialize_user_agent (data : Bytes) : OptionT (Except Fault) (Bytes × Bytes × Bool) := do
  let agent ← access (slice data 80 data.length)
  let (ua_len, varint_size) ← OptionT.mk (read_varint agent)
  let ua_start ← access (add 80 varint_size)
  let ua_end ← attempt (checked_add ua_start ua_len)
  if data.length < ua_end then failure
  else
    let user_agent ← access (slice data ua_start ua_end)
    let sh_end ← access (add ua_end 4)
    if data.length < sh_end then failure
    else
      let start_height ← access (slice data ua_end sh_end)
      let start_height ← attempt (try_into 4 start_height)
      if data.length > sh_end then
        let relay ← access (index data sh_end)
        pure (user_agent, start_height, relay != 0)
      else pure (user_agent, start_height, true)

def deserialize_version (data : Bytes) : OptionT (Except Fault) VersionMessage :=
  if data.length < 46 then failure
  else do
    let b0 ← access (index data 0)
    let b1 ← access (index data 1)
    let b2 ← access (index data 2)
    let b3 ← access (index data 3)
    let services ← access (slice data 4 12)
    let services ← attempt (try_into 8 services)
    let timestamp ← access (slice data 12 20)
    let timestamp ← attempt (try_into 8 timestamp)
    let addr_recv ← access (slice data 20 46)
    let addr_recv ← deserialize_net_address addr_recv
    if data.length < 72 then failure
    else
      let addr_from ← access (slice data 46 72)
      let addr_from ← deserialize_net_address addr_from
      if data.length < 80 then failure
      else
        let nonce ← access (slice data 72 80)
        let nonce ← attempt (try_into 8 nonce)
        let (user_agent, start_height, relay) ← deserialize_user_agent data
        pure {
          version := u32_from_bytes [b0, b1, b2, b3]
          services := .from_bits_truncate (u64_from_bytes services)
          timestamp := (u64_from_bytes timestamp).toInt64
          addr_recv, addr_from
          nonce := u64_from_bytes nonce
          user_agent := utf8.from_utf8_lossy user_agent
          start_height := (u32_from_bytes start_height).toInt32
          relay }

/-- A list of entries of a fixed size, after their number. -/
def parse_list {A : Type} (size : Nat) (read : Bytes → Nat → Except Fault (Option A)) (data : Bytes) :
    Except Fault (List A) := do
  match ← read_varint data with
  | none => .ok []
  | some (count, offset) => (entries data size (read data) count offset).map Prod.fst

/-- The number in `n` bytes from a position on. -/
def number_at (n : Nat) (data : Bytes) (pos : Nat) : Except Fault Bytes := do
  let stop ← add pos n
  let bytes ← slice data pos stop
  unwrap (try_into n bytes)

/-- The hash of the bytes from one position up to another. -/
def hash_between (data : Bytes) (start stop : Nat) : Except Fault Uint256 := do
  let bytes ← slice data start stop
  let hash ← copy_from_slice 32 bytes
  .ok (Uint256.from_bytes hash)

def inv_at (data : Bytes) (pos : Nat) : Except Fault (Option InvVect) := do
  let type_val ← number_at 4 data pos
  let start ← add pos 4
  let stop ← add pos 36
  let hash ← hash_between data start stop
  .ok (some ⟨(InvType.from_u32 (u32_from_bytes type_val)).getD .Error, hash⟩)

def parse_inv_list : Bytes → Except Fault (List InvVect) := parse_list 36 inv_at

def header_at (data : Bytes) (pos : Nat) : Except Fault (Option Bytes) := do
  let stop ← add pos 80
  let header ← slice data pos stop
  .ok (some header)

def parse_headers_payload : Bytes → Except Fault (List Bytes) := parse_list 81 header_at

def addr_at (data : Bytes) (pos : Nat) : Except Fault (Option (UInt32 × NetAddress)) := do
  let timestamp ← number_at 4 data pos
  let start ← add pos 4
  let stop ← add pos 30
  let bytes ← slice data start stop
  let addr ← (deserialize_net_address bytes).run
  .ok (addr.map fun addr => (u32_from_bytes timestamp, addr))

def parse_addr_list : Bytes → Except Fault (List (UInt32 × NetAddress)) := parse_list 30 addr_at

def locator_at (data : Bytes) (pos : Nat) : Except Fault (Option BlockHash) := do
  let stop ← add pos 32
  let hash ← hash_between data pos stop
  .ok (some hash)

/-- The eight bytes at the front, or zero where the payload is shorter. -/
def parse_nonce (payload : Bytes) : Except Fault UInt64 :=
  if payload.length ≥ 8 then do
    let bytes ← slice payload 0 8
    let bytes ← unwrap (try_into 8 bytes)
    .ok (u64_from_bytes bytes)
  else .ok 0

def parse_sendtxrcncl (payload : Bytes) : Except Fault (Option (UInt32 × UInt64)) :=
  if payload.length ≥ 12 then do
    let version ← slice payload 0 4
    let version ← unwrap (try_into 4 version)
    let salt ← slice payload 4 12
    let salt ← unwrap (try_into 8 salt)
    .ok (some (u32_from_bytes version, u64_from_bytes salt))
  else .ok none

def parse_sendcmpct (payload : Bytes) : Except Fault (Option (Bool × UInt64)) :=
  if payload.length ≥ 9 then do
    let announce ← index payload 0
    let version ← slice payload 1 9
    let version ← unwrap (try_into 8 version)
    .ok (some (announce != 0, u64_from_bytes version))
  else .ok none

/-- The hash that ends `getheaders` and `getblocks`. -/
def hash_stop_at (payload : Bytes) (pos : Nat) : Except Fault BlockHash := do
  let stop ← add pos 32
  if stop ≤ payload.length then hash_between payload pos stop else .ok 0

def parse_locators (payload : Bytes) : Except Fault (Option (UInt32 × List BlockHash × BlockHash)) :=
  if payload.length < 4 then .ok none
  else do
    let version ← slice payload 0 4
    let version ← unwrap (try_into 4 version)
    let data ← slice payload 4 payload.length
    match ← read_varint data with
    | none => .ok none
    | some (count, offset) =>
      let pos ← add 4 offset
      let (locators, pos) ← entries payload 32 (locator_at payload) count pos
      let hash_stop ← hash_stop_at payload pos
      .ok (some (u32_from_bytes version, locators, hash_stop))

def parse_filter_range (payload : Bytes) : Except Fault (Option (UInt8 × UInt32 × BlockHash)) :=
  if payload.length ≥ 37 then do
    let filter_type ← index payload 0
    let start_height ← slice payload 1 5
    let start_height ← unwrap (try_into 4 start_height)
    let stop_hash ← hash_between payload 5 37
    .ok (some (filter_type, u32_from_bytes start_height, stop_hash))
  else .ok none

def parse_getcfcheckpt (payload : Bytes) : Except Fault (Option (UInt8 × BlockHash)) :=
  if payload.length ≥ 33 then do
    let filter_type ← index payload 0
    let stop_hash ← hash_between payload 1 33
    .ok (some (filter_type, stop_hash))
  else .ok none

/-- The reason of a rejection, after the code at a position. -/
def parse_reason (payload : Bytes) (msg_end : Nat) : Except Fault String := do
  let after ← add msg_end 1
  if after < payload.length then
    let data ← slice payload after payload.length
    match ← read_varint data with
    | none => .ok ""
    | some (reason_len, r_offset) =>
      let r_start ← add after r_offset
      let r_end := max (min ((checked_add r_start reason_len).getD (2 ^ 64 - 1)) payload.length) r_start
      let reason ← slice payload r_start r_end
      .ok (utf8.from_utf8_lossy reason)
  else .ok ""

def parse_reject (payload : Bytes) : Except Fault (Option (String × UInt8 × String)) := do
  match ← read_varint payload with
  | none => .ok none
  | some (msg_len, msg_start) =>
    let msg_end := (checked_add msg_start msg_len).getD (2 ^ 64 - 1)
    if msg_end < payload.length then
      let message ← slice payload msg_start msg_end
      let code ← index payload msg_end
      let reason ← parse_reason payload msg_end
      .ok (some (utf8.from_utf8_lossy message, code, reason))
    else .ok none

/-- A message with a payload that may be malformed. -/
def parsed {A : Type} (command : String) (payload : Bytes) (read : Except Fault (Option A)) (message : A → NetMessage) :
    Except Fault NetMessage :=
  read.map fun read => connection.parsed command payload read message

def parse_message (command : String) (payload : Bytes) : Except Fault NetMessage :=
  match command with
  | "version" => parsed command payload (deserialize_version payload).run .Version
  | "verack" => .ok .Verack
  | "ping" => (parse_nonce payload).map .Ping
  | "pong" => (parse_nonce payload).map .Pong
  | "getaddr" => .ok .GetAddr
  | "sendheaders" => .ok .SendHeaders
  | "wtxidrelay" => .ok .WtxidRelay
  | "sendaddrv2" => .ok .SendAddrV2
  | "filterclear" => .ok .FilterClear
  | "mempool" => .ok .MemPool
  | "sendtxrcncl" => parsed command payload (parse_sendtxrcncl payload) fun (version, salt) => .SendTxRcncl version salt
  | "feefilter" => (parse_nonce payload).map fun fee => .FeeFilter fee.toInt64
  | "inv" => (parse_inv_list payload).map .Inv
  | "getdata" => (parse_inv_list payload).map .GetData
  | "notfound" => (parse_inv_list payload).map .NotFound
  | "block" => .ok (.Block payload)
  | "tx" => .ok (.Tx payload)
  | "headers" => (parse_headers_payload payload).map .Headers
  | "sendcmpct" => parsed command payload (parse_sendcmpct payload) fun (announce, version) => .SendCmpct announce version
  | "cmpctblock" => .ok (.CmpctBlock payload)
  | "getblocktxn" => .ok (.GetBlockTxn payload)
  | "blocktxn" => .ok (.BlockTxn payload)
  | "filterload" => .ok (.FilterLoad payload)
  | "filteradd" => .ok (.FilterAdd payload)
  | "merkleblock" => .ok (.MerkleBlock payload)
  | "addrv2" => .ok (.AddrV2 payload)
  | "cfheaders" => .ok (.CFHeaders payload)
  | "cfilter" => .ok (.CFilter payload)
  | "cfcheckpt" => .ok (.CFCheckpt payload)
  | "getheaders" => parsed command payload (parse_locators payload) fun (version, locators, hash_stop) =>
    .GetHeaders version locators hash_stop
  | "getblocks" => parsed command payload (parse_locators payload) fun (version, locators, hash_stop) =>
    .GetBlocks version locators hash_stop
  | "getcfheaders" => parsed command payload (parse_filter_range payload) fun (filter_type, start_height, stop_hash) =>
    .GetCFHeaders filter_type start_height stop_hash
  | "getcfilters" => parsed command payload (parse_filter_range payload) fun (filter_type, start_height, stop_hash) =>
    .GetCFilters filter_type start_height stop_hash
  | "getcfcheckpt" => parsed command payload (parse_getcfcheckpt payload) fun (filter_type, stop_hash) =>
    .GetCFCheckpt filter_type stop_hash
  | "addr" => (parse_addr_list payload).map .Addr
  | "reject" => parsed command payload (parse_reject payload) fun (message, code, reason) => .Reject message code reason
  | _ => .ok (.Unknown command payload)

end qubitcoin.connection.indexed
