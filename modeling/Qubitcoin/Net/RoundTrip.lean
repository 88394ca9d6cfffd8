import Qubitcoin.Net.Message

/-! Messages that are written are parsed to themselves. -/

open qubitcoin primitives protocol
open qubitcoin.net_processing (InvType InvVect)

namespace qubitcoin.connection

theorem read_bytes_append {bytes : Bytes} {n : Nat} (hlength : bytes.length = n) (rest : Bytes) :
    read_bytes n (bytes ++ rest) = some (bytes, rest) := by
  rw [read_bytes, if_neg (by rw [List.length_append]; omega), List.take_left' hlength, List.drop_left' hlength]

theorem length_u32_bytes (n : UInt32) : (u32_bytes n).length = 4 := littleEndian.length_toBytes 4 _

theorem length_u64_bytes (n : UInt64) : (u64_bytes n).length = 8 := littleEndian.length_toBytes 8 _

theorem length_data (hash : Uint256) : hash.data.length = 32 := littleEndian.length_toBytes 32 _

theorem u32_from_bytes_u32_bytes (n : UInt32) : u32_from_bytes (u32_bytes n) = n := by
  rw [u32_from_bytes, u32_bytes, littleEndian.ofBytes_toBytes n.toNat_lt, UInt32.ofNat_toNat]

theorem u64_from_bytes_u64_bytes (n : UInt64) : u64_from_bytes (u64_bytes n) = n := by
  rw [u64_from_bytes, u64_bytes, littleEndian.ofBytes_toBytes n.toNat_lt, UInt64.ofNat_toNat]

theorem u16_from_be_bytes_u16_be_bytes (n : UInt16) : u16_from_be_bytes (u16_be_bytes n) = n := by
  rw [u16_from_be_bytes, u16_be_bytes, List.reverse_reverse, littleEndian.ofBytes_toBytes n.toNat_lt,
    UInt16.ofNat_toNat]

theorem bounded_toBytes {size val : Nat} (hfit : val < 256 ^ size) (hbound : val ≤ MAX_PAYLOAD_SIZE) (rest : Bytes) :
    bounded size (littleEndian.toBytes size val ++ rest) = some (val, rest) := by
  have hlength := littleEndian.length_toBytes size val
  rw [bounded, if_neg (by rw [List.length_append]; omega), List.take_left' hlength, List.drop_left' hlength,
    littleEndian.ofBytes_toBytes hfit, if_pos hbound]

theorem read_varint_write_varint {val : Nat} (hbound : val ≤ MAX_PAYLOAD_SIZE) (rest : Bytes) :
    read_varint (write_varint val ++ rest) = some (val, rest) := by
  unfold write_varint
  split
  · next hsmall =>
    have hval : (UInt8.ofNat val).toNat = val := by
      rw [UInt8.toNat_ofNat']
      omega
    have hmark : ∀ mark : UInt8, 0xfd ≤ mark.toNat → UInt8.ofNat val ≠ mark := by
      rintro mark hlarge rfl
      omega
    rw [List.singleton_append, read_varint, if_neg (hmark 0xff (by decide)), if_neg (hmark 0xfe (by decide)),
      if_neg (hmark 0xfd (by decide)), hval]
  · split
    · have hfit : val < 256 ^ 2 := by omega
      rw [List.cons_append, read_varint, if_neg (by decide), if_neg (by decide), if_pos rfl]
      exact bounded_toBytes hfit hbound rest
    · split
      · have hfit : val < 256 ^ 4 := by omega
        rw [List.cons_append, read_varint, if_neg (by decide), if_pos rfl]
        exact bounded_toBytes hfit hbound rest
      · next hlarge =>
        unfold MAX_PAYLOAD_SIZE at hbound
        omega

theorem read_entries_flatMap {A : Type} {size : Nat} {read : Bytes → Option A} {write : A → Bytes} {entries : List A}
    (hentries : ∀ entry ∈ entries, (write entry).length = size ∧ read (write entry) = some entry) (rest : Bytes) :
    read_entries size read entries.length (entries.flatMap write ++ rest) = (entries, rest) := by
  induction entries with
  | nil => rfl
  | cons entry entries ih =>
    obtain ⟨hlength, hread⟩ := hentries entry List.mem_cons_self
    have htail := ih fun other hother => hentries other (List.mem_cons_of_mem _ hother)
    rw [List.flatMap_cons, List.append_assoc, List.length_cons, read_entries,
      if_neg (by rw [List.length_append]; omega), List.take_left' hlength, List.drop_left' hlength, htail, hread]
    rfl

theorem parse_list_serialize_list {A : Type} {size : Nat} {read : Bytes → Option A} {write : A → Bytes}
    {entries : List A} (hcount : entries.length ≤ MAX_PAYLOAD_SIZE)
    (hentries : ∀ entry ∈ entries, (write entry).length = size ∧ read (write entry) = some entry) :
    parse_list size read (serialize_list write entries) = entries := by
  have hread := read_entries_flatMap hentries []
  rw [List.append_nil] at hread
  rw [parse_list, serialize_list, read_varint_write_varint hcount]
  dsimp only
  rw [hread]

/-- Only bits that have a name. -/
def KnownServices (services : ServiceFlags) : Prop := services.bits &&& ServiceFlags.all = services.bits

/-- An address that has a wire form of its own: an IPv6 address is not that of an IPv4 address. -/
structure AddressValid (addr : NetAddress) : Prop where
  services : KnownServices addr.services
  ip : ∀ octets, addr.ip = .V6 octets → octets.toList.take 12 ≠ ipv4_prefix

theorem length_ip_octets (ip : IpAddr) : (ip_octets ip).length = 16 := by
  cases ip with
  | V4 octets => rw [ip_octets, List.length_append, Vector.length_toList]; rfl
  | V6 octets => exact Vector.length_toList

theorem octets_toList {n : Nat} (v : Vector UInt8 n) : octets n v.toList = v := by
  apply Vector.ext
  intro i hi
  rw [octets, Vector.getElem_ofFn, List.getD_eq_getElem?_getD, ← Vector.getElem_toList]
  rw [List.getElem?_eq_getElem (by rw [Vector.length_toList]; exact hi)]
  rfl

theorem ip_from_octets_ip_octets {addr : NetAddress} (hvalid : AddressValid addr) :
    ip_from_octets (ip_octets addr.ip) = addr.ip := by
  have hfront : ipv4_prefix.length = 12 := rfl
  cases hip : addr.ip with
  | V4 octets => rw [ip_octets, ip_from_octets, List.take_left' hfront, if_pos rfl, List.drop_left' hfront, octets_toList]
  | V6 octets => rw [ip_octets, ip_from_octets, if_neg (hvalid.ip octets hip), octets_toList]

theorem from_bits_truncate_known {services : ServiceFlags} (hknown : KnownServices services) :
    ServiceFlags.from_bits_truncate services.bits = services := by
  rw [ServiceFlags.from_bits_truncate, hknown]

theorem length_serialize_net_address (addr : NetAddress) : (serialize_net_address addr).length = 26 := by
  rw [serialize_net_address, List.length_append, List.length_append, length_u64_bytes, length_ip_octets, u16_be_bytes,
    List.length_reverse, littleEndian.length_toBytes]

theorem deserialize_net_address_serialize {addr : NetAddress} (hvalid : AddressValid addr) :
    deserialize_net_address (serialize_net_address addr) = some addr := by
  have hservices : (u64_bytes addr.services.bits).length = 8 := length_u64_bytes _
  have hip : (ip_octets addr.ip).length = 16 := length_ip_octets _
  have hport : (u16_be_bytes addr.port).length = 2 := by
    rw [u16_be_bytes, List.length_reverse, littleEndian.length_toBytes]
  have hboth : (u64_bytes addr.services.bits ++ ip_octets addr.ip).length = 24 := by
    rw [List.length_append, hservices, hip]
  have hlast : (u16_be_bytes addr.port).take 2 = u16_be_bytes addr.port := List.take_of_length_le (Nat.le_of_eq hport)
  rw [deserialize_net_address, if_neg (by rw [length_serialize_net_address]; omega), serialize_net_address,
    List.drop_left' hboth, hlast, List.append_assoc, List.take_left' hservices, List.drop_left' hservices,
    List.take_left' hip, u64_from_bytes_u64_bytes, from_bits_truncate_known hvalid.services,
    ip_from_octets_ip_octets hvalid, u16_from_be_bytes_u16_be_bytes]

theorem from_u32_to_u32 (inv_type : InvType) : InvType.from_u32 inv_type.to_u32 = some inv_type := by
  cases inv_type <;> rfl

theorem parse_inv_serialize_inv (item : InvVect) :
    (serialize_inv item).length = 36 ∧ some (parse_inv (serialize_inv item)) = some item := by
  have htype : (u32_bytes item.inv_type.to_u32).length = 4 := length_u32_bytes _
  constructor
  · rw [serialize_inv, List.length_append, htype, length_data]
  · rw [parse_inv, serialize_inv, List.take_left' htype, List.drop_left' htype, u32_from_bytes_u32_bytes,
      from_u32_to_u32, Uint256.from_bytes_data]
    rfl

theorem parse_inv_list_serialize {inv : List InvVect} (hcount : inv.length ≤ MAX_PAYLOAD_SIZE) :
    parse_inv_list (serialize_inv_list inv) = inv :=
  parse_list_serialize_list hcount fun item _ => parse_inv_serialize_inv item

theorem parse_headers_serialize {headers : List Bytes} (hcount : headers.length ≤ MAX_PAYLOAD_SIZE)
    (hheaders : ∀ header ∈ headers, header.length = 80) : parse_headers_payload (serialize_headers headers) = headers := by
  refine parse_list_serialize_list hcount fun header hmem => ⟨?_, ?_⟩
  · rw [List.length_append, hheaders header hmem]
    rfl
  · rw [List.take_left' (hheaders header hmem)]

theorem parse_addr_list_serialize {addrs : List (UInt32 × NetAddress)} (hcount : addrs.length ≤ MAX_PAYLOAD_SIZE)
    (haddrs : ∀ entry ∈ addrs, AddressValid entry.2) : parse_addr_list (serialize_addr_list addrs) = addrs := by
  refine parse_list_serialize_list hcount fun entry hmem => ?_
  have htime : (u32_bytes entry.1).length = 4 := length_u32_bytes _
  constructor
  · rw [List.length_append, htime, length_serialize_net_address]
  · rw [List.take_left' htime, List.drop_left' htime, deserialize_net_address_serialize (haddrs entry hmem),
      u32_from_bytes_u32_bytes]
    rfl

theorem parse_locators_serialize (version : UInt32) {locators : List BlockHash} (hash_stop : BlockHash)
    (hcount : locators.length ≤ MAX_PAYLOAD_SIZE) :
    parse_locators (serialize_locators version locators hash_stop) = some (version, locators, hash_stop) := by
  have hentries : ∀ hash ∈ locators, (Uint256.data hash).length = 32 ∧
      some (Uint256.from_bytes (Uint256.data hash)) = some hash :=
    fun hash _ => ⟨length_data hash, congrArg some (Uint256.from_bytes_data hash)⟩
  have hstop : hash_stop.data.take 32 = hash_stop.data := List.take_of_length_le (Nat.le_of_eq (length_data _))
  rw [parse_locators, serialize_locators, serialize_list, List.append_assoc, read_bytes_append (length_u32_bytes _),
    Option.bind_eq_bind, Option.bind_some]
  dsimp only
  rw [List.append_assoc, read_varint_write_varint hcount, Option.bind_eq_bind, Option.bind_some]
  dsimp only
  rw [read_entries_flatMap hentries]
  dsimp only
  rw [if_pos (Nat.le_of_eq (length_data _).symm), hstop, Uint256.from_bytes_data, u32_from_bytes_u32_bytes]
  rfl

theorem parse_filter_range_serialize (filter_type : UInt8) (start_height : UInt32) (stop_hash : BlockHash) :
    parse_filter_range (serialize_filter_range filter_type start_height stop_hash) =
      some (filter_type, start_height, stop_hash) := by
  have hheight : (u32_bytes start_height).length = 4 := length_u32_bytes _
  have hstop : stop_hash.data.take 32 = stop_hash.data := List.take_of_length_le (Nat.le_of_eq (length_data _))
  rw [serialize_filter_range, parse_filter_range, if_pos, List.take_left' hheight, List.drop_left' hheight, hstop,
    u32_from_bytes_u32_bytes, Uint256.from_bytes_data]
  rw [List.length_append, hheight, length_data]

theorem parse_reject_serialize {message reason : String} (code : UInt8)
    (hmessage : (utf8.bytes message).length ≤ MAX_PAYLOAD_SIZE) (hreason : (utf8.bytes reason).length ≤ MAX_PAYLOAD_SIZE) :
    parse_reject (serialize_message (.Reject message code reason)) = some (message, code, reason) := by
  have hrest := read_varint_write_varint hreason (utf8.bytes reason)
  rw [serialize_message, parse_reject, List.append_assoc, List.append_assoc, List.append_assoc,
    read_varint_write_varint hmessage, Option.bind_eq_bind, Option.bind_some]
  dsimp only
  rw [List.drop_left, List.singleton_append, List.take_left]
  dsimp only
  rw [hrest]
  dsimp only
  rw [List.take_length, utf8.from_utf8_lossy_bytes, utf8.from_utf8_lossy_bytes]

structure VersionValid (msg : VersionMessage) : Prop where
  services : KnownServices msg.services
  addr_recv : AddressValid msg.addr_recv
  addr_from : AddressValid msg.addr_from
  user_agent : (utf8.bytes msg.user_agent).length ≤ MAX_PAYLOAD_SIZE

theorem deserialize_version_serialize {msg : VersionMessage} (hvalid : VersionValid msg) :
    deserialize_version (serialize_version msg) = some msg := by
  rw [deserialize_version, serialize_version]
  simp only [List.append_assoc]
  refine Option.bind_eq_some_iff.mpr ⟨_, read_bytes_append (length_u32_bytes _) _, ?_⟩
  refine Option.bind_eq_some_iff.mpr ⟨_, read_bytes_append (length_u64_bytes _) _, ?_⟩
  refine Option.bind_eq_some_iff.mpr ⟨_, read_bytes_append (length_u64_bytes _) _, ?_⟩
  refine Option.bind_eq_some_iff.mpr ⟨_, read_bytes_append (length_serialize_net_address _) _, ?_⟩
  refine Option.bind_eq_some_iff.mpr ⟨_, deserialize_net_address_serialize hvalid.addr_recv, ?_⟩
  refine Option.bind_eq_some_iff.mpr ⟨_, read_bytes_append (length_serialize_net_address _) _, ?_⟩
  refine Option.bind_eq_some_iff.mpr ⟨_, deserialize_net_address_serialize hvalid.addr_from, ?_⟩
  refine Option.bind_eq_some_iff.mpr ⟨_, read_bytes_append (length_u64_bytes _) _, ?_⟩
  refine Option.bind_eq_some_iff.mpr ⟨_, read_varint_write_varint hvalid.user_agent _, ?_⟩
  refine Option.bind_eq_some_iff.mpr ⟨_, read_bytes_append rfl _, ?_⟩
  refine Option.bind_eq_some_iff.mpr ⟨_, read_bytes_append (length_u32_bytes _) _, ?_⟩
  dsimp only
  rw [u32_from_bytes_u32_bytes, u64_from_bytes_u64_bytes, u64_from_bytes_u64_bytes, u64_from_bytes_u64_bytes,
    u32_from_bytes_u32_bytes, from_bits_truncate_known hvalid.services, utf8.from_utf8_lossy_bytes,
    Int64.toInt64_toUInt64, Int32.toInt32_toUInt32]
  obtain ⟨_, _, _, _, _, _, _, _, relay⟩ := msg
  cases relay <;> rfl

def commands : List String :=
  ["version", "verack", "ping", "pong", "getaddr", "sendheaders", "wtxidrelay", "sendaddrv2", "filterclear", "mempool",
    "sendtxrcncl", "feefilter", "inv", "getdata", "notfound", "block", "tx", "headers", "sendcmpct", "cmpctblock",
    "getblocktxn", "blocktxn", "filterload", "filteradd", "merkleblock", "addrv2", "cfheaders", "cfilter", "cfcheckpt",
    "getheaders", "getblocks", "getcfheaders", "getcfilters", "getcfcheckpt", "addr", "reject"]

def WireValid : NetMessage → Prop
  | .Version ver => VersionValid ver
  | .Addr addrs => addrs.length ≤ MAX_PAYLOAD_SIZE ∧ ∀ entry ∈ addrs, AddressValid entry.2
  | .Inv inv | .GetData inv | .NotFound inv => inv.length ≤ MAX_PAYLOAD_SIZE
  | .GetBlocks _ locators _ | .GetHeaders _ locators _ => locators.length ≤ MAX_PAYLOAD_SIZE
  | .Headers headers => headers.length ≤ MAX_PAYLOAD_SIZE ∧ ∀ header ∈ headers, header.length = 80
  | .Reject message _ reason =>
    (utf8.bytes message).length ≤ MAX_PAYLOAD_SIZE ∧ (utf8.bytes reason).length ≤ MAX_PAYLOAD_SIZE
  | .Unknown command _ => command ∉ commands
  | _ => True

theorem parse_nonce_u64_bytes (nonce : UInt64) : parse_nonce (u64_bytes nonce) = nonce := by
  have hall : (u64_bytes nonce).take 8 = u64_bytes nonce := List.take_of_length_le (Nat.le_of_eq (length_u64_bytes _))
  rw [parse_nonce, if_pos (Nat.le_of_eq (length_u64_bytes _).symm), hall, u64_from_bytes_u64_bytes]

theorem parse_unknown {command : String} (hunknown : command ∉ commands) (payload : Bytes) :
    parse_message command payload = .Unknown command payload := by
  unfold parse_message
  split <;> first | rfl | exact absurd (by decide) hunknown

/-- Parsing what is written for a message gives the message. -/
theorem parse_serialize_message (message : NetMessage) (hvalid : WireValid message) :
    parse_message message.command (serialize_message message) = message := by
  cases message with
  | Version ver =>
    rw [NetMessage.command, serialize_message, parse_message, deserialize_version_serialize hvalid]
    rfl
  | Ping nonce => rw [NetMessage.command, serialize_message, parse_message, parse_nonce_u64_bytes]
  | Pong nonce => rw [NetMessage.command, serialize_message, parse_message, parse_nonce_u64_bytes]
  | Addr addrs => rw [NetMessage.command, serialize_message, parse_message, parse_addr_list_serialize hvalid.1 hvalid.2]
  | Inv inv => rw [NetMessage.command, serialize_message, parse_message, parse_inv_list_serialize hvalid]
  | GetData inv => rw [NetMessage.command, serialize_message, parse_message, parse_inv_list_serialize hvalid]
  | NotFound inv => rw [NetMessage.command, serialize_message, parse_message, parse_inv_list_serialize hvalid]
  | GetBlocks version locators hash_stop =>
    rw [NetMessage.command, serialize_message, parse_message, parse_locators_serialize version hash_stop hvalid]
    rfl
  | GetHeaders version locators hash_stop =>
    rw [NetMessage.command, serialize_message, parse_message, parse_locators_serialize version hash_stop hvalid]
    rfl
  | Headers headers =>
    rw [NetMessage.command, serialize_message, parse_message, parse_headers_serialize hvalid.1 hvalid.2]
  | Reject message code reason =>
    rw [NetMessage.command, parse_message, parse_reject_serialize code hvalid.1 hvalid.2]
    rfl
  | SendCmpct announce version =>
    have hversion : (u64_bytes version).take 8 = u64_bytes version :=
      List.take_of_length_le (Nat.le_of_eq (length_u64_bytes _))
    rw [NetMessage.command, serialize_message, parse_message, if_pos (Nat.le_of_eq (length_u64_bytes _).symm), hversion,
      u64_from_bytes_u64_bytes]
    cases announce <;> rfl
  | FeeFilter fee =>
    rw [NetMessage.command, serialize_message, parse_message, parse_nonce_u64_bytes, Int64.toInt64_toUInt64]
  | SendTxRcncl version salt =>
    have hversion : (u32_bytes version).length = 4 := length_u32_bytes _
    have hsalt : (u64_bytes salt).take 8 = u64_bytes salt :=
      List.take_of_length_le (Nat.le_of_eq (length_u64_bytes _))
    rw [NetMessage.command, serialize_message, parse_message, if_pos, List.take_left' hversion,
      List.drop_left' hversion, hsalt, u32_from_bytes_u32_bytes, u64_from_bytes_u64_bytes]
    rw [List.length_append, hversion, length_u64_bytes]
  | GetCFHeaders filter_type start_height stop_hash =>
    rw [NetMessage.command, serialize_message, parse_message, parse_filter_range_serialize]
    rfl
  | GetCFilters filter_type start_height stop_hash =>
    rw [NetMessage.command, serialize_message, parse_message, parse_filter_range_serialize]
    rfl
  | GetCFCheckpt filter_type stop_hash =>
    have hstop : stop_hash.data.take 32 = stop_hash.data := List.take_of_length_le (Nat.le_of_eq (length_data _))
    rw [NetMessage.command, serialize_message, parse_message, if_pos (Nat.le_of_eq (length_data _).symm), hstop,
      Uint256.from_bytes_data]
  | Unknown command payload => exact parse_unknown hvalid payload
  | _ => rw [NetMessage.command, serialize_message, parse_message]

def local_version : VersionMessage where
  version := PROTOCOL_VERSION
  services := ⟨9⟩
  timestamp := 1700000000
  addr_recv := ⟨⟨0⟩, .V4 #v[127, 0, 0, 1], 8333⟩
  addr_from := ⟨⟨9⟩, .V6 #v[0, 0, 0, 0, 0, 0, 0, 0, 0, 0, 0, 0, 0, 0, 0, 1], 18444⟩
  nonce := 0x1122334455667788
  user_agent := "/Qubitcoin:0.1.0/"
  start_height := -1
  relay := true

theorem parse_serialize_local_version :
    parse_message "version" (serialize_message (.Version local_version)) = .Version local_version := by
  refine parse_serialize_message (.Version local_version) ⟨rfl, ⟨rfl, nofun⟩, ⟨rfl, ?_⟩, by decide⟩
  intro octets hip
  obtain rfl := IpAddr.V6.inj hip
  decide

end qubitcoin.connection
