import Qubitcoin.Lib.Utf8
import Qubitcoin.Net.Processor

/-! `qubitcoin-net/protocol.rs` and the parser and the writer of messages in
    `qubitcoin-net/connection.rs`. -/

open qubitcoin.primitives
open qubitcoin.net_processing (InvType InvVect)

namespace qubitcoin.protocol

def PROTOCOL_VERSION : UInt32 := 70016
def MIN_PEER_PROTO_VERSION : UInt32 := 31800
def MAX_PAYLOAD_SIZE : Nat := 4000000

structure ServiceFlags where
  bits : UInt64
  deriving DecidableEq, Repr

/-- The bits that have a name: network, bloom, witness, compact filters, limited network and v2
    transport. -/
def ServiceFlags.all : UInt64 := 0xc4d

def ServiceFlags.from_bits_truncate (bits : UInt64) : ServiceFlags := ⟨bits &&& all⟩

inductive IpAddr where
  | V4 (octets : Vector UInt8 4)
  | V6 (octets : Vector UInt8 16)
  deriving DecidableEq, Repr

structure NetAddress where
  services : ServiceFlags
  ip : IpAddr
  port : UInt16
  deriving DecidableEq, Repr

structure VersionMessage where
  version : UInt32
  services : ServiceFlags
  timestamp : Int64
  addr_recv : NetAddress
  addr_from : NetAddress
  nonce : UInt64
  user_agent : String
  start_height : Int32
  relay : Bool
  deriving DecidableEq

inductive NetMessage where
  | Version (version : VersionMessage)
  | Verack
  | Ping (nonce : UInt64)
  | Pong (nonce : UInt64)
  | GetAddr
  | Addr (addrs : List (UInt32 × NetAddress))
  | AddrV2 (data : List UInt8)
  | Inv (inv : List InvVect)
  | GetData (inv : List InvVect)
  | GetBlocks (version : UInt32) (locators : List BlockHash) (hash_stop : BlockHash)
  | GetHeaders (version : UInt32) (locators : List BlockHash) (hash_stop : BlockHash)
  | Block (data : List UInt8)
  | Tx (data : List UInt8)
  | Headers (headers : List (List UInt8))
  | NotFound (inv : List InvVect)
  | Reject (message : String) (code : UInt8) (reason : String)
  | SendHeaders
  | SendCmpct (announce : Bool) (version : UInt64)
  | FeeFilter (fee : Int64)
  | WtxidRelay
  | SendAddrV2
  | SendTxRcncl (version : UInt32) (salt : UInt64)
  | CmpctBlock (data : List UInt8)
  | GetBlockTxn (data : List UInt8)
  | BlockTxn (data : List UInt8)
  | FilterLoad (data : List UInt8)
  | FilterAdd (data : List UInt8)
  | FilterClear
  | MerkleBlock (data : List UInt8)
  | MemPool
  | GetCFHeaders (filter_type : UInt8) (start_height : UInt32) (stop_hash : BlockHash)
  | CFHeaders (data : List UInt8)
  | GetCFilters (filter_type : UInt8) (start_height : UInt32) (stop_hash : BlockHash)
  | CFilter (data : List UInt8)
  | GetCFCheckpt (filter_type : UInt8) (stop_hash : BlockHash)
  | CFCheckpt (data : List UInt8)
  | Unknown (command : String) (payload : List UInt8)

def NetMessage.command : NetMessage → String
  | .Version _ => "version"
  | .Verack => "verack"
  | .Ping _ => "ping"
  | .Pong _ => "pong"
  | .GetAddr => "getaddr"
  | .Addr _ => "addr"
  | .AddrV2 _ => "addrv2"
  | .Inv _ => "inv"
  | .GetData _ => "getdata"
  | .GetBlocks .. => "getblocks"
  | .GetHeaders .. => "getheaders"
  | .Block _ => "block"
  | .Tx _ => "tx"
  | .Headers _ => "headers"
  | .NotFound _ => "notfound"
  | .Reject .. => "reject"
  | .SendHeaders => "sendheaders"
  | .SendCmpct .. => "sendcmpct"
  | .FeeFilter _ => "feefilter"
  | .WtxidRelay => "wtxidrelay"
  | .SendAddrV2 => "sendaddrv2"
  | .SendTxRcncl .. => "sendtxrcncl"
  | .CmpctBlock _ => "cmpctblock"
  | .GetBlockTxn _ => "getblocktxn"
  | .BlockTxn _ => "blocktxn"
  | .FilterLoad _ => "filterload"
  | .FilterAdd _ => "filteradd"
  | .FilterClear => "filterclear"
  | .MerkleBlock _ => "merkleblock"
  | .MemPool => "mempool"
  | .GetCFHeaders .. => "getcfheaders"
  | .CFHeaders _ => "cfheaders"
  | .GetCFilters .. => "getcfilters"
  | .CFilter _ => "cfilter"
  | .GetCFCheckpt .. => "getcfcheckpt"
  | .CFCheckpt _ => "cfcheckpt"
  | .Unknown command _ => command

end qubitcoin.protocol

namespace qubitcoin.net_processing

def InvType.to_u32 : InvType → UInt32
  | .Error => 0
  | .Tx => 1
  | .Block => 2
  | .FilteredBlock => 3
  | .CompactBlock => 4
  | .WTx => 5
  | .WitnessTx => 0x40000001
  | .WitnessBlock => 0x40000002
  | .WitnessFilteredBlock => 0x40000003

def InvType.from_u32 (v : UInt32) : Option InvType :=
  if v = 0 then some .Error
  else if v = 1 then some .Tx
  else if v = 2 then some .Block
  else if v = 3 then some .FilteredBlock
  else if v = 4 then some .CompactBlock
  else if v = 5 then some .WTx
  else if v = 0x40000001 then some .WitnessTx
  else if v = 0x40000002 then some .WitnessBlock
  else if v = 0x40000003 then some .WitnessFilteredBlock
  else none

end qubitcoin.net_processing

namespace qubitcoin.connection

open qubitcoin.protocol

abbrev Bytes := List UInt8

def u16_be_bytes (n : UInt16) : Bytes := (littleEndian.toBytes 2 n.toNat).reverse
def u32_bytes (n : UInt32) : Bytes := littleEndian.toBytes 4 n.toNat
def u64_bytes (n : UInt64) : Bytes := littleEndian.toBytes 8 n.toNat

def u16_from_be_bytes (bytes : Bytes) : UInt16 := UInt16.ofNat (littleEndian.ofBytes bytes.reverse)
def u32_from_bytes (bytes : Bytes) : UInt32 := UInt32.ofNat (littleEndian.ofBytes bytes)
def u64_from_bytes (bytes : Bytes) : UInt64 := UInt64.ofNat (littleEndian.ofBytes bytes)

/-- A number with one byte up to `0xfc`, else a mark and two, four or eight bytes. -/
def write_varint (val : Nat) : Bytes :=
  if val < 0xfd then [UInt8.ofNat val]
  else if val ≤ 0xffff then 0xfd :: littleEndian.toBytes 2 val
  else if val ≤ 0xffffffff then 0xfe :: littleEndian.toBytes 4 val
  else 0xff :: littleEndian.toBytes 8 val

/-- The number of the first `size` bytes, if it is not too large, and the rest. -/
def bounded (size : Nat) (data : Bytes) : Option (Nat × Bytes) :=
  if data.length < size then none
  else if littleEndian.ofBytes (data.take size) ≤ MAX_PAYLOAD_SIZE then
    some (littleEndian.ofBytes (data.take size), data.drop size)
  else none

def read_varint : Bytes → Option (Nat × Bytes)
  | [] => none
  | first :: rest =>
    if first = 0xff then bounded 8 rest
    else if first = 0xfe then bounded 4 rest
    else if first = 0xfd then bounded 2 rest
    else some (first.toNat, rest)

/-- The next `n` bytes and what stands after them. -/
def read_bytes (n : Nat) (data : Bytes) : Option (Bytes × Bytes) :=
  if data.length < n then none else some (data.take n, data.drop n)

/-- Entries of a fixed size, up to a count; the data may end before. An entry that cannot be
    read is left out. -/
def read_entries {A : Type} (size : Nat) (read : Bytes → Option A) : (count : Nat) → Bytes → List A × Bytes
  | 0, data => ([], data)
  | count + 1, data =>
    if data.length < size then ([], data)
    else
      let (entries, rest) := read_entries size read count (data.drop size)
      ((read (data.take size)).toList ++ entries, rest)

def ipv4_prefix : Bytes := [0, 0, 0, 0, 0, 0, 0, 0, 0, 0, 0xff, 0xff]

/-- An IPv4 address is written as an IPv6 address. -/
def ip_octets : IpAddr → Bytes
  | .V4 octets => ipv4_prefix ++ octets.toList
  | .V6 octets => octets.toList

/-- Services, address and port; the port has its most significant byte first. -/
def serialize_net_address (addr : NetAddress) : Bytes :=
  u64_bytes addr.services.bits ++ ip_octets addr.ip ++ u16_be_bytes addr.port

/-- The vector of the first `n` bytes, which are there. -/
def octets (n : Nat) (bytes : Bytes) : Vector UInt8 n := Vector.ofFn fun i => bytes.getD i 0

def ip_from_octets (bytes : Bytes) : IpAddr :=
  if bytes.take 12 = ipv4_prefix then .V4 (octets 4 (bytes.drop 12)) else .V6 (octets 16 bytes)

def deserialize_net_address (data : Bytes) : Option NetAddress :=
  if data.length < 26 then none
  else some {
    services := .from_bits_truncate (u64_from_bytes (data.take 8))
    ip := ip_from_octets ((data.drop 8).take 16)
    port := u16_from_be_bytes ((data.drop 24).take 2) }

def serialize_version (msg : VersionMessage) : Bytes :=
  u32_bytes msg.version ++ u64_bytes msg.services.bits ++ u64_bytes msg.timestamp.toUInt64 ++
    serialize_net_address msg.addr_recv ++ serialize_net_address msg.addr_from ++ u64_bytes msg.nonce ++
    write_varint (utf8.bytes msg.user_agent).length ++ utf8.bytes msg.user_agent ++
    u32_bytes msg.start_height.toUInt32 ++ [if msg.relay then 1 else 0]

/-- The flag at the end is optional. -/
def deserialize_version (data : Bytes) : Option VersionMessage := do
  let (version, data) ← read_bytes 4 data
  let (services, data) ← read_bytes 8 data
  let (timestamp, data) ← read_bytes 8 data
  let (addr_recv, data) ← read_bytes 26 data
  let addr_recv ← deserialize_net_address addr_recv
  let (addr_from, data) ← read_bytes 26 data
  let addr_from ← deserialize_net_address addr_from
  let (nonce, data) ← read_bytes 8 data
  let (ua_len, data) ← read_varint data
  let (user_agent, data) ← read_bytes ua_len data
  let (start_height, data) ← read_bytes 4 data
  pure {
    version := u32_from_bytes version
    services := .from_bits_truncate (u64_from_bytes services)
    timestamp := (u64_from_bytes timestamp).toInt64
    addr_recv
    addr_from
    nonce := u64_from_bytes nonce
    user_agent := utf8.from_utf8_lossy user_agent
    start_height := (u32_from_bytes start_height).toInt32
    relay := match data with
      | [] => true
      | relay :: _ => relay != 0 }

/-- A list after the number of its entries. -/
def serialize_list {A : Type} (write : A → Bytes) (entries : List A) : Bytes :=
  write_varint entries.length ++ entries.flatMap write

/-- A list of entries of a fixed size; it is empty where the number cannot be read. -/
def parse_list {A : Type} (size : Nat) (read : Bytes → Option A) (data : Bytes) : List A :=
  match read_varint data with
  | none => []
  | some (count, data) => (read_entries size read count data).1

def serialize_inv (item : InvVect) : Bytes := u32_bytes item.inv_type.to_u32 ++ item.hash.data

def parse_inv (data : Bytes) : InvVect :=
  ⟨(InvType.from_u32 (u32_from_bytes (data.take 4))).getD .Error, Uint256.from_bytes (data.drop 4)⟩

def serialize_inv_list : List InvVect → Bytes := serialize_list serialize_inv

def parse_inv_list : Bytes → List InvVect := parse_list 36 fun data => some (parse_inv data)

/-- A header is followed by a transaction count of zero. -/
def serialize_headers : List Bytes → Bytes := serialize_list fun header => header ++ [0]

def parse_headers_payload : Bytes → List Bytes := parse_list 81 fun data => some (data.take 80)

def serialize_addr_list : List (UInt32 × NetAddress) → Bytes :=
  serialize_list fun entry => u32_bytes entry.1 ++ serialize_net_address entry.2

def parse_addr_list : Bytes → List (UInt32 × NetAddress) :=
  parse_list 30 fun data => (deserialize_net_address (data.drop 4)).map fun addr => (u32_from_bytes (data.take 4), addr)

/-- A nonce, or zero where it is cut short. -/
def parse_nonce (payload : Bytes) : UInt64 := if payload.length ≥ 8 then u64_from_bytes (payload.take 8) else 0

/-- `getheaders` and `getblocks`: version, locator hashes and the hash to stop at, which is zero
    where it is missing. -/
def parse_locators (payload : Bytes) : Option (UInt32 × List BlockHash × BlockHash) := do
  let (version, data) ← read_bytes 4 payload
  let (count, data) ← read_varint data
  let (locators, data) := read_entries 32 (fun bytes => some (Uint256.from_bytes bytes)) count data
  let hash_stop := if data.length ≥ 32 then Uint256.from_bytes (data.take 32) else 0
  pure (u32_from_bytes version, locators, hash_stop)

/-- A filter type, a start height and a hash. -/
def parse_filter_range (payload : Bytes) : Option (UInt8 × UInt32 × BlockHash) :=
  match payload with
  | filter_type :: data =>
    if data.length ≥ 36 then
      some (filter_type, u32_from_bytes (data.take 4), Uint256.from_bytes ((data.drop 4).take 32))
    else none
  | [] => none

/-- Message, code and reason; the reason is empty where it cannot be read. -/
def parse_reject (payload : Bytes) : Option (String × UInt8 × String) := do
  let (msg_len, data) ← read_varint payload
  match data.drop msg_len with
  | [] => none
  | code :: rest =>
    let reason := match read_varint rest with
      | some (reason_len, rest) => utf8.from_utf8_lossy (rest.take reason_len)
      | none => ""
    some (utf8.from_utf8_lossy (data.take msg_len), code, reason)

/-- A message with a payload that may be malformed. -/
def parsed {A : Type} (command : String) (payload : Bytes) (read : Option A) (message : A → NetMessage) : NetMessage :=
  match read with
  | some a => message a
  | none => .Unknown command payload

def parse_message (command : String) (payload : Bytes) : NetMessage :=
  match command with
  | "version" => parsed command payload (deserialize_version payload) .Version
  | "verack" => .Verack
  | "ping" => .Ping (parse_nonce payload)
  | "pong" => .Pong (parse_nonce payload)
  | "getaddr" => .GetAddr
  | "sendheaders" => .SendHeaders
  | "wtxidrelay" => .WtxidRelay
  | "sendaddrv2" => .SendAddrV2
  | "filterclear" => .FilterClear
  | "mempool" => .MemPool
  | "sendtxrcncl" =>
    if payload.length ≥ 12 then
      .SendTxRcncl (u32_from_bytes (payload.take 4)) (u64_from_bytes ((payload.drop 4).take 8))
    else .Unknown command payload
  | "feefilter" => .FeeFilter (parse_nonce payload).toInt64
  | "inv" => .Inv (parse_inv_list payload)
  | "getdata" => .GetData (parse_inv_list payload)
  | "notfound" => .NotFound (parse_inv_list payload)
  | "block" => .Block payload
  | "tx" => .Tx payload
  | "headers" => .Headers (parse_headers_payload payload)
  | "sendcmpct" =>
    match payload with
    | announce :: data =>
      if data.length ≥ 8 then .SendCmpct (announce != 0) (u64_from_bytes (data.take 8)) else .Unknown command payload
    | [] => .Unknown command payload
  | "cmpctblock" => .CmpctBlock payload
  | "getblocktxn" => .GetBlockTxn payload
  | "blocktxn" => .BlockTxn payload
  | "filterload" => .FilterLoad payload
  | "filteradd" => .FilterAdd payload
  | "merkleblock" => .MerkleBlock payload
  | "addrv2" => .AddrV2 payload
  | "cfheaders" => .CFHeaders payload
  | "cfilter" => .CFilter payload
  | "cfcheckpt" => .CFCheckpt payload
  | "getheaders" => parsed command payload (parse_locators payload) fun (version, locators, hash_stop) =>
    .GetHeaders version locators hash_stop
  | "getblocks" => parsed command payload (parse_locators payload) fun (version, locators, hash_stop) =>
    .GetBlocks version locators hash_stop
  | "getcfheaders" => parsed command payload (parse_filter_range payload) fun (filter_type, start_height, stop_hash) =>
    .GetCFHeaders filter_type start_height stop_hash
  | "getcfilters" => parsed command payload (parse_filter_range payload) fun (filter_type, start_height, stop_hash) =>
    .GetCFilters filter_type start_height stop_hash
  | "getcfcheckpt" =>
    match payload with
    | filter_type :: data =>
      if data.length ≥ 32 then .GetCFCheckpt filter_type (Uint256.from_bytes (data.take 32))
      else .Unknown command payload
    | [] => .Unknown command payload
  | "addr" => .Addr (parse_addr_list payload)
  | "reject" => parsed command payload (parse_reject payload) fun (message, code, reason) => .Reject message code reason
  | _ => .Unknown command payload

def serialize_locators (version : UInt32) (locators : List BlockHash) (hash_stop : BlockHash) : Bytes :=
  u32_bytes version ++ serialize_list Uint256.data locators ++ hash_stop.data

def serialize_filter_range (filter_type : UInt8) (start_height : UInt32) (stop_hash : BlockHash) : Bytes :=
  filter_type :: (u32_bytes start_height ++ stop_hash.data)

def serialize_message : NetMessage → Bytes
  | .Version ver => serialize_version ver
  | .Verack => []
  | .Ping nonce => u64_bytes nonce
  | .Pong nonce => u64_bytes nonce
  | .GetAddr => []
  | .SendHeaders => []
  | .WtxidRelay => []
  | .SendAddrV2 => []
  | .FilterClear => []
  | .MemPool => []
  | .SendTxRcncl version salt => u32_bytes version ++ u64_bytes salt
  | .FeeFilter fee => u64_bytes fee.toUInt64
  | .Inv inv => serialize_inv_list inv
  | .GetData inv => serialize_inv_list inv
  | .NotFound inv => serialize_inv_list inv
  | .Block data => data
  | .Tx data => data
  | .Headers headers => serialize_headers headers
  | .SendCmpct announce version => (if announce then 1 else 0) :: u64_bytes version
  | .CmpctBlock data => data
  | .GetBlockTxn data => data
  | .BlockTxn data => data
  | .FilterLoad data => data
  | .FilterAdd data => data
  | .MerkleBlock data => data
  | .AddrV2 data => data
  | .CFHeaders data => data
  | .CFilter data => data
  | .CFCheckpt data => data
  | .GetHeaders version locators hash_stop => serialize_locators version locators hash_stop
  | .GetBlocks version locators hash_stop => serialize_locators version locators hash_stop
  | .Reject message code reason =>
    write_varint (utf8.bytes message).length ++ utf8.bytes message ++ [code] ++
      write_varint (utf8.bytes reason).length ++ utf8.bytes reason
  | .Addr addrs => serialize_addr_list addrs
  | .GetCFHeaders filter_type start_height stop_hash => serialize_filter_range filter_type start_height stop_hash
  | .GetCFilters filter_type start_height stop_hash => serialize_filter_range filter_type start_height stop_hash
  | .GetCFCheckpt filter_type stop_hash => filter_type :: stop_hash.data
  | .Unknown _ payload => payload

end qubitcoin.connection
