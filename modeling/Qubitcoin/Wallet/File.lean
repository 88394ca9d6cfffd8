import Qubitcoin.Lib.Format
import Qubitcoin.Lib.Utf8
import Qubitcoin.Wallet.Addresses

/-! `qubitcoin-wallet/wallet.rs`: the bytes that a wallet is saved to, and the data on which reading
    it back stops. -/

open qubitcoin codec format primitives script transaction serialize coins

namespace qubitcoin.wallet.file

/-- The library for the curve. -/
structure Secp256k1 where
  SecretKey : Type
  from_slice : List UInt8 → Except String SecretKey
  secret_bytes : SecretKey → List UInt8
  serialize_public_key : SecretKey → (compressed : Bool) → List UInt8
  x_only : SecretKey → List UInt8
  sign : SecretKey → Uint256 → Option (List UInt8)
  sign_schnorr : SecretKey → Uint256 → Option (List UInt8)

variable (secp : Secp256k1)

structure Key where
  inner : secp.SecretKey
  compressed : Bool

variable {secp}

def Key.new (data : List UInt8) (compressed : Bool) : Except String (Key secp) :=
  (secp.from_slice data).map fun inner => ⟨inner, compressed⟩

def Key.get_pubkey (self : Key secp) : List UInt8 := secp.serialize_public_key self.inner self.compressed

variable (secp)

abbrev DerivationPath := List UInt32

/-- A key of the wallet with the path that it was made for. -/
structure WalletKey where
  key : Key secp
  pubkey : List UInt8
  path : DerivationPath
  descriptor_type : DescriptorType

structure AddressInfo where
  address : String
  script_pubkey : Script
  key_index : Nat
  is_change : Bool
  deriving DecidableEq

structure Wallet where
  name : String
  keys : List (WalletKey secp)
  addresses : List AddressInfo
  change_addresses : List AddressInfo
  next_key_index : Nat
  next_change_index : Nat
  descriptor_type : DescriptorType
  transactions : HashMap Txid WalletTx
  unspent : HashMap OutPoint WalletUtxo

def Wallet.new (name : String) (descriptor_type : DescriptorType) : Wallet secp where
  name
  keys := []
  addresses := []
  change_addresses := []
  next_key_index := 0
  next_change_index := 0
  descriptor_type
  transactions := ∅
  unspent := ∅

def write_compact_size_io (n : Nat) : List UInt8 :=
  if n < 253 then [UInt8.ofNat n]
  else if n ≤ 0xffff then 253 :: littleEndian.toBytes 2 n
  else if n ≤ 0xffffffff then 254 :: littleEndian.toBytes 4 n
  else 255 :: littleEndian.toBytes 8 n

def write_compact_bytes (data : List UInt8) : List UInt8 := write_compact_size_io data.length ++ data

def write_compact_string (s : String) : List UInt8 := write_compact_bytes (utf8.bytes s)

/-- `x as u32`, in little-endian bytes. -/
def write_index (x : Nat) : List UInt8 := encode_u32 (UInt32.ofNat x)

def write_flag (flag : Bool) : List UInt8 := [if flag then 1 else 0]

def write_descriptor_type : DescriptorType → List UInt8
  | .Pkh => [0]
  | .Wpkh => [1]
  | .ShWpkh => [2]
  | .Tr => [3]

def write_address_info (addr : AddressInfo) : List UInt8 :=
  write_compact_string addr.address ++ write_compact_bytes addr.script_pubkey.data ++ write_index addr.key_index ++
    write_flag addr.is_change

variable {secp}

def write_key (wk : WalletKey secp) : List UInt8 :=
  write_flag wk.key.compressed ++ secp.secret_bytes wk.key.inner ++ write_compact_size_io wk.path.length ++
    wk.path.flatMap encode_u32 ++ write_descriptor_type wk.descriptor_type

/-- A height that is not there is written as -1. -/
def write_utxo (utxo : WalletUtxo) : List UInt8 :=
  utxo.outpoint.encode ++ encode_i64 utxo.tx_out.value ++ write_compact_bytes utxo.tx_out.script_pubkey.data ++
    encode_u32 (as_u32 (utxo.height.getD (-1))) ++ write_flag utxo.is_change

def write_list {A : Type} (write : A → List UInt8) (items : List A) : List UInt8 :=
  write_compact_size_io items.length ++ items.flatMap write

/-- `order` is the order in which the map gives out its values. -/
def Wallet.save_to_bytes (self : Wallet secp) (order : List OutPoint) : List UInt8 :=
  write_compact_string self.name ++ write_descriptor_type self.descriptor_type ++ write_index self.next_key_index ++
    write_index self.next_change_index ++ write_list write_key self.keys ++ write_list write_address_info self.addresses ++
      write_list write_address_info self.change_addresses ++
        write_list write_utxo (order.filterMap self.unspent.lookup)

inductive IoError where
  | UnexpectedEof
  | InvalidData (message : String)
  | InvalidUtf8
  deriving DecidableEq

/-- How loading ends without a wallet: with an error, or with the panic of an allocation. -/
inductive Interrupt where
  | err (error : IoError)
  | capacity_overflow
  deriving DecidableEq

def Interrupt.Panics (self : Interrupt) : Prop := self = .capacity_overflow

abbrev Reader (A : Type) := codec.Decoder UInt8 Interrupt A

def ISIZE_MAX : Nat := 2 ^ 63 - 1

/-- The memory of a list entry, and that of a map for a number of entries. -/
structure Layout where
  wallet_key : Nat
  address_info : Nat
  unspent : Nat → Nat

/-- A fixed number of bytes, of which `decode` makes a value. -/
def fixed {A : Type} (decode : serialize.Decoder A) : Reader A := withErrors (fun _ => .err .UnexpectedEof) decode

/-- Allocate memory for what is announced. -/
def with_capacity (bytes : Nat) : Reader Unit :=
  lift (if ISIZE_MAX < bytes then .error .capacity_overflow else .ok ())

def fail {A : Type} (message : String) : Reader A := lift (.error (.err (.InvalidData message)))

def read_compact_size_io : Reader Nat := do
  let first ← fixed decode_u8
  if first < 253 then pure first.toNat
  else if first = 253 then fixed (decode_le 2)
  else if first = 254 then fixed (decode_le 4)
  else fixed (decode_le 8)

def read_compact_bytes : Reader (List UInt8) := do
  let len ← read_compact_size_io
  with_capacity len
  fixed (serialize.read_exact len)

def read_compact_string : Reader String := do
  let bytes ← read_compact_bytes
  lift (match utf8.ofBytes? bytes with
    | some s => .ok s
    | none => .error (.err .InvalidUtf8))

def read_flag : Reader Bool := do
  let byte ← fixed decode_u8
  pure (byte != 0)

def read_descriptor_type (message : String) : Reader DescriptorType := do
  let byte ← fixed decode_u8
  if byte = 0 then pure .Pkh
  else if byte = 1 then pure .Wpkh
  else if byte = 2 then pure .ShWpkh
  else if byte = 3 then pure .Tr
  else fail message

def read_address_info : Reader AddressInfo := do
  let address ← read_compact_string
  let script_bytes ← read_compact_bytes
  let key_index ← fixed decode_u32
  let is_change ← read_flag
  pure ⟨address, ⟨script_bytes⟩, key_index.toNat, is_change⟩

/-- A count, memory for that many items, and the items. -/
def read_list {A : Type} (bytes : Nat → Nat) (read : Reader A) : Reader (List A) := do
  let count ← read_compact_size_io
  with_capacity (bytes count)
  decode_items read count

variable (secp)

def read_secret : Reader (Key secp) := do
  let compressed ← read_flag
  let secret ← fixed (serialize.read_exact 32)
  lift ((Key.new secret compressed).mapError fun message => .err (.InvalidData message))

def read_key : Reader (WalletKey secp) := do
  let key ← read_secret secp
  let path ← read_list (4 * ·) (fixed decode_u32)
  let wk_dt ← read_descriptor_type "invalid key descriptor type"
  pure ⟨key, key.get_pubkey, path, wk_dt⟩

def read_utxo : Reader WalletUtxo := do
  let txid ← fixed decode_uint256
  let vout ← fixed decode_u32
  let value ← fixed decode_i64
  let script_bytes ← read_compact_bytes
  let h ← fixed decode_u32
  let is_change ← read_flag
  let height := if as_i32 h < 0 then none else some (as_i32 h)
  pure ⟨⟨txid, vout⟩, ⟨value, ⟨script_bytes⟩⟩, height, is_change⟩

/-- Transactions are not saved. -/
def read_wallet (layout : Layout) : Reader (Wallet secp) := do
  let name ← read_compact_string
  let descriptor_type ← read_descriptor_type "invalid descriptor type"
  let next_key_index ← fixed decode_u32
  let next_change_index ← fixed decode_u32
  let keys ← read_list (layout.wallet_key * ·) (read_key secp)
  let addresses ← read_list (layout.address_info * ·) read_address_info
  let change_addresses ← read_list (layout.address_info * ·) read_address_info
  let utxos ← read_list layout.unspent read_utxo
  pure {
    name, keys, addresses, change_addresses, descriptor_type
    next_key_index := next_key_index.toNat
    next_change_index := next_change_index.toNat
    transactions := ∅
    unspent := utxos.foldl (fun unspent utxo => unspent.insert utxo.outpoint utxo) ∅ }

def load_from_bytes (layout : Layout) (data : List UInt8) : Except Interrupt (Wallet secp) :=
  ((read_wallet secp layout).run data).map Prod.fst

/-- The spellings of a number. Not only the shortest one is read. -/
def CompactSize (n : Nat) (bytes : List UInt8) : Prop :=
  n < 253 ∧ bytes = [UInt8.ofNat n] ∨ n < 2 ^ 16 ∧ bytes = 253 :: littleEndian.toBytes 2 n ∨
    n < 2 ^ 32 ∧ bytes = 254 :: littleEndian.toBytes 4 n ∨ n < 2 ^ 64 ∧ bytes = 255 :: littleEndian.toBytes 8 n

/-- The data begins with the number of items that need more memory than there can be. -/
def Exceeds (bytes : Nat → Nat) (input : List UInt8) : Prop :=
  ∃ n, After (CompactSize n) (fun _ => ISIZE_MAX < bytes n) input

/-- A number of items that can be allocated. -/
def Count (bytes : Nat → Nat) (n : Nat) (count : List UInt8) : Prop := CompactSize n count ∧ bytes n ≤ ISIZE_MAX

def BytesSpelled (data bytes : List UInt8) : Prop := ∃ count, Count id data.length count ∧ bytes = count ++ data

def StringSpelled (s : String) (bytes : List UInt8) : Prop := BytesSpelled (utf8.bytes s) bytes

def FlagSpelled (flag : Bool) (bytes : List UInt8) : Prop := ∃ byte : UInt8, flag = (byte != 0) ∧ bytes = [byte]

def ListSpelled {A : Type} (bytes : Nat → Nat) (spelled : A → List UInt8 → Prop) (items : List A)
    (written : List UInt8) : Prop :=
  ∃ count body, Count bytes items.length count ∧ Items spelled items body ∧ written = count ++ body

/-- The count of a list exceeds the memory, or its items stop before there are as many. -/
def ListStops {A : Type} (bytes : Nat → Nat) (spelled : A → List UInt8 → Prop) (stops : List UInt8 → Prop)
    (input : List UInt8) : Prop :=
  Exceeds bytes input ∨ ∃ n, After (Count bytes n) (StopsWithin spelled stops n) input

def AddressSpelled (addr : AddressInfo) (bytes : List UInt8) : Prop :=
  ∃ address script flag, StringSpelled addr.address address ∧ BytesSpelled addr.script_pubkey.data script ∧
    addr.key_index < 2 ^ 32 ∧ FlagSpelled addr.is_change flag ∧ bytes = address ++ script ++ write_index addr.key_index ++ flag

/-- The length of the address exceeds the memory, or that of the script. -/
def AddressStops (input : List UInt8) : Prop := Exceeds id input ∨ ∃ address, After (StringSpelled address) (Exceeds id) input

variable (secp : Secp256k1)

/-- The flag and the bytes of a secret. -/
def SecretSpelled (key : Key secp) (bytes : List UInt8) : Prop :=
  ∃ flag secret, secret.length = 32 ∧ (∃ compressed, FlagSpelled compressed flag ∧ Key.new secret compressed = .ok key) ∧
    bytes = flag ++ secret

def KeySpelled (wk : WalletKey secp) (bytes : List UInt8) : Prop :=
  ∃ secret path, SecretSpelled secp wk.key secret ∧ wk.pubkey = wk.key.get_pubkey ∧
    ListSpelled (4 * ·) (fun component bytes => bytes = encode_u32 component) wk.path path ∧
      bytes = secret ++ path ++ write_descriptor_type wk.descriptor_type

/-- The length of the path exceeds the memory. -/
def KeyStops (input : List UInt8) : Prop := ∃ key, After (SecretSpelled secp key) (Exceeds (4 * ·)) input

def HeightSpelled (height : Option Int) (bytes : List UInt8) : Prop :=
  ∃ h : UInt32, height = (if as_i32 h < 0 then none else some (as_i32 h)) ∧ bytes = encode_u32 h

def UtxoSpelled (utxo : WalletUtxo) (bytes : List UInt8) : Prop :=
  ∃ script height flag, IntType.i64.fits utxo.tx_out.value ∧ BytesSpelled utxo.tx_out.script_pubkey.data script ∧
    HeightSpelled utxo.height height ∧ FlagSpelled utxo.is_change flag ∧
      bytes = utxo.outpoint.encode ++ encode_i64 utxo.tx_out.value ++ script ++ height ++ flag

/-- After the outpoint and the value, the length of the script exceeds the memory. -/
def UtxoStops (input : List UInt8) : Prop :=
  ∃ (outpoint : OutPoint) (value : Int),
    After (fun bytes => IntType.i64.fits value ∧ bytes = outpoint.encode ++ encode_i64 value) (Exceeds id) input

/-- The name, the type of the descriptor and the two indices. -/
def HeaderSpelled (name : String) (descriptor_type : DescriptorType) (next_key_index next_change_index : Nat)
    (bytes : List UInt8) : Prop :=
  ∃ string, StringSpelled name string ∧ next_key_index < 2 ^ 32 ∧ next_change_index < 2 ^ 32 ∧
    bytes = string ++ write_descriptor_type descriptor_type ++ write_index next_key_index ++ write_index next_change_index

variable {secp}

theorem describes_fixed {A : Type} {decode : serialize.Decoder A} {encode : A → List UInt8} {valid : A → Prop}
    (hexact : Exact decode encode valid) :
    Describes Interrupt.Panics (fixed decode) (fun a bytes => valid a ∧ bytes = encode a) fun _ => False :=
  describes_of_exact hexact fun _ => nofun

theorem describes_with_capacity (n : Nat) :
    Describes Interrupt.Panics (with_capacity n) (fun _ bytes => n ≤ ISIZE_MAX ∧ bytes = []) fun _ => ISIZE_MAX < n := by
  unfold with_capacity
  refine (describes_lift _).congr (fun _ bytes => and_congr_left fun _ => ?_) fun input => ?_
  · split
    · next hexceeds => exact ⟨nofun, fun hle => absurd hle (Nat.not_le_of_lt hexceeds)⟩
    · next hfits => exact ⟨fun _ => Nat.le_of_not_lt hfits, fun _ => rfl⟩
  · split
    · next hexceeds => exact ⟨fun _ => hexceeds, fun _ => ⟨_, rfl, rfl⟩⟩
    · next hfits => exact ⟨(fun ⟨_, _, heq⟩ => nomatch heq), fun hexceeds => absurd hexceeds hfits⟩

theorem describes_read_compact_size_io : Describes Interrupt.Panics read_compact_size_io CompactSize fun _ => False := by
  have hafter : ∀ first : UInt8, Describes Interrupt.Panics
      (if first < 253 then pure first.toNat
        else if first = 253 then fixed (decode_le 2)
        else if first = 254 then fixed (decode_le 4)
        else fixed (decode_le 8) : Reader Nat)
      (fun n bytes => first < 253 ∧ n = first.toNat ∧ bytes = [] ∨
        first = 253 ∧ n < 256 ^ 2 ∧ bytes = littleEndian.toBytes 2 n ∨
        first = 254 ∧ n < 256 ^ 4 ∧ bytes = littleEndian.toBytes 4 n ∨
        first = 255 ∧ n < 256 ^ 8 ∧ bytes = littleEndian.toBytes 8 n) fun _ => False := by
    intro first
    have hvalue : first < 253 ∨ first = 253 ∨ first = 254 ∨ first = 255 := by
      have hlt := first.toNat_lt
      rw [UInt8.lt_iff_toNat_lt, ← UInt8.toNat_inj, ← UInt8.toNat_inj, ← UInt8.toNat_inj]
      change first.toNat < 253 ∨ first.toNat = 253 ∨ first.toNat = 254 ∨ first.toNat = 255
      omega
    obtain hsmall | rfl | rfl | rfl := hvalue
    · rw [if_pos hsmall]
      have hne : first ≠ 253 ∧ first ≠ 254 ∧ first ≠ 255 := by
        refine ⟨?_, ?_, ?_⟩ <;>
        · rintro rfl
          exact absurd hsmall (by decide)
      refine (describes_pure _).congr (fun n bytes => ?_) fun _ => Iff.rfl
      simp [hsmall, hne]
    · exact (describes_fixed (exact_decode_le 2)).congr (fun n bytes => by simp) fun _ => Iff.rfl
    · exact (describes_fixed (exact_decode_le 4)).congr (fun n bytes => by simp) fun _ => Iff.rfl
    · exact (describes_fixed (exact_decode_le 8)).congr (fun n bytes => by simp) fun _ => Iff.rfl
  refine ((describes_fixed exact_decode_u8).bind hafter).congr (fun n bytes => ?_) fun input => ?_
  · unfold CompactSize
    constructor
    · rintro ⟨first, _, back, ⟨_, rfl⟩, hback, rfl⟩
      obtain ⟨hsmall, rfl, rfl⟩ | ⟨rfl, hlt, rfl⟩ | ⟨rfl, hlt, rfl⟩ | ⟨rfl, hlt, rfl⟩ := hback
      · rw [UInt8.lt_iff_toNat_lt] at hsmall
        exact .inl ⟨hsmall, by rw [UInt8.ofNat_toNat, List.append_nil]⟩
      · exact .inr (.inl ⟨hlt, rfl⟩)
      · exact .inr (.inr (.inl ⟨hlt, rfl⟩))
      · exact .inr (.inr (.inr ⟨hlt, rfl⟩))
    · rintro (⟨hlt, rfl⟩ | ⟨hlt, rfl⟩ | ⟨hlt, rfl⟩ | ⟨hlt, rfl⟩)
      · have hnat : (UInt8.ofNat n).toNat = n := UInt8.toNat_ofNat_of_lt' (Nat.lt_trans hlt (by decide))
        refine ⟨UInt8.ofNat n, _, [], ⟨trivial, rfl⟩, .inl ⟨?_, hnat.symm, rfl⟩, rfl⟩
        rw [UInt8.lt_iff_toNat_lt, hnat]
        exact hlt
      · exact ⟨253, [253], _, ⟨trivial, rfl⟩, .inr (.inl ⟨rfl, hlt, rfl⟩), rfl⟩
      · exact ⟨254, [254], _, ⟨trivial, rfl⟩, .inr (.inr (.inl ⟨rfl, hlt, rfl⟩)), rfl⟩
      · exact ⟨255, [255], _, ⟨trivial, rfl⟩, .inr (.inr (.inr ⟨rfl, hlt, rfl⟩)), rfl⟩
  · simp only [after_false, exists_false, or_false]

theorem describes_u32 : Describes Interrupt.Panics (fixed decode_u32) (fun x bytes => bytes = encode_u32 x) fun _ => False :=
  (describes_fixed exact_decode_u32).congr (fun _ _ => and_iff_right trivial) fun _ => Iff.rfl

theorem describes_counted {A : Type} (bytes : Nat → Nat) {next : Nat → Reader A} {spelled : Nat → A → List UInt8 → Prop}
    {stops : Nat → List UInt8 → Prop} (hnext : ∀ n, Describes Interrupt.Panics (next n) (spelled n) (stops n)) :
    Describes Interrupt.Panics (do
        let count ← read_compact_size_io
        with_capacity (bytes count)
        next count)
      (fun a written => ∃ n count body, Count bytes n count ∧ spelled n a body ∧ written = count ++ body)
      fun input => Exceeds bytes input ∨ ∃ n, After (Count bytes n) (stops n) input := by
  refine (describes_read_compact_size_io.bind fun n => (describes_with_capacity (bytes n)).bind fun _ => hnext n).congr
    (fun a written => ?_) fun input => ?_
  · constructor
    · rintro ⟨n, count, body, hcount, ⟨_, _, _, ⟨hfits, rfl⟩, hbody, rfl⟩, rfl⟩
      exact ⟨n, count, body, ⟨hcount, hfits⟩, hbody, rfl⟩
    · rintro ⟨n, count, body, ⟨hcount, hfits⟩, hbody, rfl⟩
      exact ⟨n, count, body, hcount, ⟨(), [], body, ⟨hfits, rfl⟩, hbody, rfl⟩, rfl⟩
  · unfold Exceeds
    constructor
    · rintro (hfalse | ⟨n, count, rest, hcount, rfl, hexceeds | ⟨_, _, _, ⟨hfits, rfl⟩, rfl, hstops⟩⟩)
      · exact hfalse.elim
      · exact .inl ⟨n, count, rest, hcount, rfl, hexceeds⟩
      · exact .inr ⟨n, count, _, ⟨hcount, hfits⟩, rfl, hstops⟩
    · rintro (⟨n, count, rest, hcount, rfl, hexceeds⟩ | ⟨n, count, rest, ⟨hcount, hfits⟩, rfl, hstops⟩)
      · exact .inr ⟨n, count, rest, hcount, rfl, .inl hexceeds⟩
      · exact .inr ⟨n, count, rest, hcount, rfl, .inr ⟨(), [], rest, ⟨hfits, rfl⟩, rfl, hstops⟩⟩

theorem describes_read_compact_bytes :
    Describes Interrupt.Panics read_compact_bytes BytesSpelled (Exceeds id) := by
  refine (describes_counted id fun n => describes_fixed (exact_read_exact _ n)).congr (fun data bytes => ?_) fun input => ?_
  · constructor
    · rintro ⟨_, count, _, hcount, ⟨rfl, rfl⟩, rfl⟩
      exact ⟨count, hcount, rfl⟩
    · rintro ⟨count, hcount, rfl⟩
      exact ⟨_, count, data, hcount, ⟨rfl, rfl⟩, rfl⟩
  · simp only [after_false, exists_false, or_false]

theorem describes_read_list {A : Type} (bytes : Nat → Nat) {read : Reader A} {spelled : A → List UInt8 → Prop}
    {stops : List UInt8 → Prop} (hread : Describes Interrupt.Panics read spelled stops) :
    Describes Interrupt.Panics (read_list bytes read) (ListSpelled bytes spelled) (ListStops bytes spelled stops) := by
  refine (describes_counted bytes fun n => hread.decode_items n).congr (fun items written => ?_) fun input => Iff.rfl
  constructor
  · rintro ⟨_, count, body, hcount, ⟨rfl, hitems⟩, rfl⟩
    exact ⟨count, body, hcount, hitems, rfl⟩
  · rintro ⟨count, body, hcount, hitems, rfl⟩
    exact ⟨_, count, body, hcount, ⟨rfl, hitems⟩, rfl⟩

theorem describes_read_compact_string : Describes Interrupt.Panics read_compact_string StringSpelled (Exceeds id) := by
  refine (describes_read_compact_bytes.bind fun data => describes_lift _).congr (fun s bytes => ?_) fun input => ?_
  · unfold StringSpelled
    constructor
    · rintro ⟨data, front, _, hdata, ⟨hvalid, rfl⟩, rfl⟩
      rw [List.append_nil]
      split at hvalid
      · next found hfound =>
        cases hvalid
        rw [utf8.bytes_of_ofBytes? hfound]
        exact hdata
      · cases hvalid
    · intro hdata
      refine ⟨utf8.bytes s, bytes, [], hdata, ⟨?_, rfl⟩, (List.append_nil _).symm⟩
      rw [utf8.ofBytes?_bytes]
  · constructor
    · rintro (hexceeds | ⟨data, _, _, _, _, _, hpanics, herror⟩)
      · exact hexceeds
      · split at herror
        · cases herror
        · cases herror
          cases hpanics
    · exact .inl

theorem describes_read_flag : Describes Interrupt.Panics read_flag FlagSpelled fun _ => False := by
  refine ((describes_fixed exact_decode_u8).map _).congr (fun flag bytes => ?_) fun _ => Iff.rfl
  constructor
  · rintro ⟨byte, ⟨_, rfl⟩, rfl⟩
    exact ⟨byte, rfl, rfl⟩
  · rintro ⟨byte, rfl, rfl⟩
    exact ⟨byte, ⟨trivial, rfl⟩, rfl⟩

theorem describes_read_descriptor_type (message : String) :
    Describes Interrupt.Panics (read_descriptor_type message) (fun found bytes => bytes = write_descriptor_type found)
      fun _ => False := by
  have hfail : ∀ {byte : UInt8}, byte ≠ 0 → byte ≠ 1 → byte ≠ 2 → byte ≠ 3 →
      Describes Interrupt.Panics (fail message : Reader DescriptorType)
        (fun found bytes => [byte] = write_descriptor_type found ∧ bytes = []) fun _ => False := by
    intro byte hpkh hwpkh hsh htr
    refine (describes_lift _).congr (fun found bytes => and_congr_left fun _ => ⟨nofun, fun heq => ?_⟩) fun _ => ?_
    · cases found with
      | Pkh => exact absurd (List.singleton_inj.mp heq) hpkh
      | Wpkh => exact absurd (List.singleton_inj.mp heq) hwpkh
      | ShWpkh => exact absurd (List.singleton_inj.mp heq) hsh
      | Tr => exact absurd (List.singleton_inj.mp heq) htr
    · refine ⟨?_, False.elim⟩
      rintro ⟨_, hpanics, herror⟩
      cases herror
      cases hpanics
  have hpure : ∀ {byte : UInt8} (type : DescriptorType), [byte] = write_descriptor_type type →
      Describes Interrupt.Panics (pure type : Reader DescriptorType)
        (fun found bytes => [byte] = write_descriptor_type found ∧ bytes = []) fun _ => False := by
    intro byte type hbyte
    refine (describes_pure type).congr (fun found bytes => and_congr_left fun _ => ?_) fun _ => Iff.rfl
    rw [hbyte]
    constructor
    · rintro rfl
      rfl
    · intro heq
      cases type <;> cases found <;> first | rfl | cases heq
  have hafter : ∀ byte : UInt8, Describes Interrupt.Panics
      (if byte = 0 then pure .Pkh
        else if byte = 1 then pure .Wpkh
        else if byte = 2 then pure .ShWpkh
        else if byte = 3 then pure .Tr
        else fail message : Reader DescriptorType)
      (fun found bytes => [byte] = write_descriptor_type found ∧ bytes = []) fun _ => False := by
    intro byte
    split
    · next heq => exact hpure _ (by rw [heq]; rfl)
    · next hpkh =>
      split
      · next heq => exact hpure _ (by rw [heq]; rfl)
      · next hwpkh =>
        split
        · next heq => exact hpure _ (by rw [heq]; rfl)
        · next hsh =>
          split
          · next heq => exact hpure _ (by rw [heq]; rfl)
          · next htr => exact hfail hpkh hwpkh hsh htr
  refine ((describes_fixed exact_decode_u8).bind hafter).congr (fun found bytes => ?_) fun input => ?_
  · constructor
    · rintro ⟨byte, _, _, ⟨_, rfl⟩, ⟨heq, rfl⟩, rfl⟩
      rw [List.append_nil]
      exact heq
    · rintro rfl
      obtain ⟨byte, hbyte⟩ : ∃ byte, [byte] = write_descriptor_type found := by cases found <;> exact ⟨_, rfl⟩
      exact ⟨byte, [byte], [], ⟨trivial, rfl⟩, ⟨hbyte, rfl⟩, by rw [List.append_nil, hbyte]⟩
  · simp only [after_false, exists_false, or_false]

theorem describes_read_address_info : Describes Interrupt.Panics read_address_info AddressSpelled AddressStops := by
  refine (describes_read_compact_string.bind fun address => describes_read_compact_bytes.bind fun script =>
    (describes_fixed exact_decode_u32).bind fun key_index => describes_read_flag.map fun is_change =>
      (⟨address, ⟨script⟩, key_index.toNat, is_change⟩ : AddressInfo)).congr (fun addr bytes => ?_) fun input => ?_
  · constructor
    · rintro ⟨address, front, _, haddress, ⟨script, mid, _, hscript, ⟨key_index, _, flag, ⟨_, rfl⟩, ⟨is_change, hflag, rfl⟩,
        rfl⟩, rfl⟩, rfl⟩
      refine ⟨front, mid, flag, haddress, hscript, key_index.toNat_lt, hflag, ?_⟩
      unfold write_index
      rw [UInt32.ofNat_toNat, List.append_assoc, List.append_assoc]
    · rintro ⟨address, script, flag, haddress, hscript, hindex, hflag, rfl⟩
      have hnat : (UInt32.ofNat addr.key_index).toNat = addr.key_index := UInt32.toNat_ofNat_of_lt' hindex
      refine ⟨addr.address, address, _, haddress, ⟨addr.script_pubkey.data, script, _, hscript,
        ⟨UInt32.ofNat addr.key_index, _, flag, ⟨trivial, rfl⟩, ⟨addr.is_change, hflag, ?_⟩, rfl⟩, rfl⟩, ?_⟩
      · rw [hnat]
      · unfold write_index
        rw [List.append_assoc, List.append_assoc]
  · unfold AddressStops
    simp only [after_false, exists_false, or_false]

theorem describes_read_secret : Describes Interrupt.Panics (read_secret secp) (SecretSpelled secp) fun _ => False := by
  refine (describes_read_flag.bind fun compressed => (describes_fixed (exact_read_exact _ 32)).bind fun secret =>
    describes_lift _).congr (fun key bytes => ?_) fun input => ?_
  · constructor
    · rintro ⟨compressed, flag, _, hflag, ⟨secret, _, _, ⟨hlength, rfl⟩, ⟨hkey, rfl⟩, rfl⟩, rfl⟩
      rw [List.append_nil]
      exact ⟨flag, _, hlength, ⟨compressed, hflag, mapError_eq_ok.mp hkey⟩, rfl⟩
    · rintro ⟨flag, secret, hlength, ⟨compressed, hflag, hkey⟩, rfl⟩
      refine ⟨compressed, flag, secret, hflag, ⟨secret, secret, [], ⟨hlength, rfl⟩, ⟨mapError_eq_ok.mpr hkey, rfl⟩, ?_⟩, rfl⟩
      rw [List.append_nil]
  · refine ⟨?_, False.elim⟩
    rintro (hfalse | ⟨compressed, _, _, _, _, hfalse | ⟨secret, _, _, _, _, _, hpanics, herror⟩⟩)
    · exact hfalse
    · exact hfalse
    · cases hkey : (Key.new secret compressed : Except String (Key secp)) with
      | error message =>
        rw [hkey] at herror
        cases herror
        cases hpanics
      | ok key =>
        rw [hkey] at herror
        cases herror

theorem describes_read_key : Describes Interrupt.Panics (read_key secp) (KeySpelled secp) (KeyStops secp) := by
  refine (describes_read_secret.bind fun key => (describes_read_list (4 * ·) describes_u32).bind fun path =>
    (describes_read_descriptor_type "invalid key descriptor type").map fun wk_dt =>
      (⟨key, key.get_pubkey, path, wk_dt⟩ : WalletKey secp)).congr (fun wk bytes => ?_) fun input => ?_
  · constructor
    · rintro ⟨key, secret, _, hsecret, ⟨path, written, _, hpath, ⟨wk_dt, rfl, rfl⟩, rfl⟩, rfl⟩
      exact ⟨secret, written, hsecret, rfl, hpath, (List.append_assoc _ _ _).symm⟩
    · rintro ⟨secret, path, hsecret, hpubkey, hpath, rfl⟩
      refine ⟨wk.key, secret, _, hsecret, ⟨wk.path, path, _, hpath, ⟨wk.descriptor_type, rfl, ?_⟩, rfl⟩, List.append_assoc _ _ _⟩
      rw [← hpubkey]
  · unfold KeyStops ListStops
    simp only [after_false, stopsWithin_false, exists_false, or_false, false_or]

theorem describes_read_utxo : Describes Interrupt.Panics read_utxo UtxoSpelled UtxoStops := by
  refine ((describes_fixed exact_decode_uint256).bind fun txid => (describes_fixed exact_decode_u32).bind fun vout =>
    (describes_fixed exact_decode_i64).bind fun value => describes_read_compact_bytes.bind fun script =>
      (describes_fixed exact_decode_u32).bind fun h => describes_read_flag.map fun is_change =>
        (⟨⟨txid, vout⟩, ⟨value, ⟨script⟩⟩, if as_i32 h < 0 then none else some (as_i32 h), is_change⟩ : WalletUtxo)).congr
    (fun utxo bytes => ?_) fun input => ?_
  · constructor
    · rintro ⟨txid, _, _, ⟨_, rfl⟩, ⟨vout, _, _, ⟨_, rfl⟩, ⟨value, _, _, ⟨hvalue, rfl⟩, ⟨script, written, _, hscript,
        ⟨h, _, flag, ⟨_, rfl⟩, ⟨is_change, hflag, rfl⟩, rfl⟩, rfl⟩, rfl⟩, rfl⟩, rfl⟩
      refine ⟨written, encode_u32 h, flag, hvalue, hscript, ⟨h, rfl, rfl⟩, hflag, ?_⟩
      unfold OutPoint.encode
      simp only [List.append_assoc]
    · rintro ⟨script, _, flag, hvalue, hscript, ⟨h, hheight, rfl⟩, hflag, rfl⟩
      refine ⟨utxo.outpoint.hash, _, _, ⟨trivial, rfl⟩, ⟨utxo.outpoint.n, _, _, ⟨trivial, rfl⟩, ⟨utxo.tx_out.value, _, _,
        ⟨hvalue, rfl⟩, ⟨utxo.tx_out.script_pubkey.data, script, _, hscript, ⟨h, _, flag, ⟨trivial, rfl⟩,
          ⟨utxo.is_change, hflag, ?_⟩, rfl⟩, rfl⟩, rfl⟩, rfl⟩, ?_⟩
      · rw [← hheight]
      · unfold OutPoint.encode
        simp only [List.append_assoc]
  · unfold UtxoStops
    simp only [after_false, exists_false, or_false, false_or]
    constructor
    · rintro ⟨txid, _, _, ⟨_, rfl⟩, rfl, vout, _, _, ⟨_, rfl⟩, rfl, value, _, rest, ⟨hvalue, rfl⟩, rfl, hexceeds⟩
      refine ⟨⟨txid, vout⟩, value, _, rest, ⟨hvalue, rfl⟩, ?_, hexceeds⟩
      unfold OutPoint.encode
      simp only [List.append_assoc]
    · rintro ⟨outpoint, value, _, rest, ⟨hvalue, rfl⟩, rfl, hexceeds⟩
      refine ⟨outpoint.hash, _, _, ⟨trivial, rfl⟩, ?_, outpoint.n, _, _, ⟨trivial, rfl⟩, rfl, value, _, rest, ⟨hvalue, rfl⟩, rfl,
        hexceeds⟩
      unfold OutPoint.encode
      simp only [List.append_assoc]

/-- The data on which loading panics: somewhere the next number of items needs more memory than
    there can be, and everything before it is the beginning of a wallet file. -/
def FileStops (secp : Secp256k1) (layout : Layout) (data : List UInt8) : Prop :=
  Exceeds id data ∨ ∃ name descriptor_type next_key_index next_change_index,
    After (HeaderSpelled name descriptor_type next_key_index next_change_index) (fun rest =>
      ListStops (layout.wallet_key * ·) (KeySpelled secp) (KeyStops secp) rest ∨
        ∃ keys, After (ListSpelled (layout.wallet_key * ·) (KeySpelled secp) keys) (fun rest =>
          ListStops (layout.address_info * ·) AddressSpelled AddressStops rest ∨
            ∃ addresses, After (ListSpelled (layout.address_info * ·) AddressSpelled addresses) (fun rest =>
              ListStops (layout.address_info * ·) AddressSpelled AddressStops rest ∨
                ∃ change_addresses, After (ListSpelled (layout.address_info * ·) AddressSpelled change_addresses)
                  (ListStops layout.unspent UtxoSpelled UtxoStops) rest) rest) rest) data

/-- The map of unspent outputs, with the later one of two for one outpoint. -/
def unspent_of (utxos : List WalletUtxo) : HashMap OutPoint WalletUtxo :=
  utxos.foldl (fun unspent utxo => unspent.insert utxo.outpoint utxo) ∅

def WalletSpelled (secp : Secp256k1) (layout : Layout) (wallet : Wallet secp) (bytes : List UInt8) : Prop :=
  ∃ header keys addresses change_addresses unspent utxos,
    HeaderSpelled wallet.name wallet.descriptor_type wallet.next_key_index wallet.next_change_index header ∧
    ListSpelled (layout.wallet_key * ·) (KeySpelled secp) wallet.keys keys ∧
    ListSpelled (layout.address_info * ·) AddressSpelled wallet.addresses addresses ∧
    ListSpelled (layout.address_info * ·) AddressSpelled wallet.change_addresses change_addresses ∧
    ListSpelled layout.unspent UtxoSpelled utxos unspent ∧ wallet.unspent = unspent_of utxos ∧ wallet.transactions = ∅ ∧
    bytes = header ++ keys ++ addresses ++ change_addresses ++ unspent

theorem write_index_toNat (x : UInt32) : write_index x.toNat = encode_u32 x := by
  unfold write_index
  rw [UInt32.ofNat_toNat]

theorem describes_read_wallet (layout : Layout) :
    Describes Interrupt.Panics (read_wallet secp layout) (WalletSpelled secp layout) (FileStops secp layout) := by
  have hutxos := describes_read_list layout.unspent describes_read_utxo
  have haddresses := describes_read_list (layout.address_info * ·) describes_read_address_info
  have hkeys := describes_read_list (layout.wallet_key * ·) (@describes_read_key secp)
  refine (describes_read_compact_string.bind fun name => (describes_read_descriptor_type _).bind fun descriptor_type =>
    describes_u32.bind fun next_key_index => describes_u32.bind fun next_change_index => hkeys.bind fun keys =>
      haddresses.bind fun addresses => haddresses.bind fun change_addresses => hutxos.map fun utxos =>
        ({ name, keys, addresses, change_addresses, descriptor_type
           next_key_index := next_key_index.toNat
           next_change_index := next_change_index.toNat
           transactions := ∅
           unspent := unspent_of utxos } : Wallet secp)).congr (fun wallet bytes => ?_) fun input => ?_
  · constructor
    · rintro ⟨name, string, _, hname, ⟨descriptor_type, _, _, rfl, ⟨next_key_index, _, _, rfl, ⟨next_change_index, _, _, rfl,
        ⟨keys, keys_written, _, hkeys, ⟨addresses, written, _, haddresses, ⟨change_addresses, change_written, unspent, hchange,
          ⟨utxos, hutxos, rfl⟩, rfl⟩, rfl⟩, rfl⟩, rfl⟩, rfl⟩, rfl⟩, rfl⟩
      refine ⟨_, keys_written, written, change_written, unspent, utxos,
        ⟨string, hname, next_key_index.toNat_lt, next_change_index.toNat_lt, rfl⟩, hkeys, haddresses, hchange, hutxos, rfl, rfl, ?_⟩
      simp only [write_index_toNat, List.append_assoc]
    · rintro ⟨_, keys, addresses, change_addresses, unspent, utxos, ⟨string, hname, hkey_index, hchange_index, rfl⟩, hkeys,
        haddresses, hchange, hutxos, hunspent, htransactions, rfl⟩
      have hkey_nat : (UInt32.ofNat wallet.next_key_index).toNat = wallet.next_key_index :=
        UInt32.toNat_ofNat_of_lt' hkey_index
      have hchange_nat : (UInt32.ofNat wallet.next_change_index).toNat = wallet.next_change_index :=
        UInt32.toNat_ofNat_of_lt' hchange_index
      refine ⟨wallet.name, string, _, hname, ⟨wallet.descriptor_type, _, _, rfl, ⟨UInt32.ofNat wallet.next_key_index, _, _, rfl,
        ⟨UInt32.ofNat wallet.next_change_index, _, _, rfl, ⟨wallet.keys, keys, _, hkeys, ⟨wallet.addresses, addresses, _,
          haddresses, ⟨wallet.change_addresses, change_addresses, unspent, hchange, ⟨utxos, hutxos, ?_⟩, rfl⟩, rfl⟩, rfl⟩, rfl⟩,
            rfl⟩, rfl⟩, ?_⟩
      · rw [hkey_nat, hchange_nat, ← hunspent, ← htransactions]
      · simp only [write_index, List.append_assoc]
  · unfold FileStops
    simp only [false_or]
    refine or_congr_right ?_
    constructor
    · rintro ⟨name, string, _, hname, rfl, descriptor_type, _, _, rfl, rfl, next_key_index, _, _, rfl, rfl, next_change_index,
        _, rest, rfl, rfl, hstops⟩
      refine ⟨name, descriptor_type, next_key_index.toNat, next_change_index.toNat, _, rest,
        ⟨string, hname, next_key_index.toNat_lt, next_change_index.toNat_lt, rfl⟩, ?_, hstops⟩
      simp only [write_index_toNat, List.append_assoc]
    · rintro ⟨name, descriptor_type, next_key_index, next_change_index, _, rest, ⟨string, hname, hkey_index, hchange_index, rfl⟩,
        rfl, hstops⟩
      refine ⟨name, string, _, hname, ?_, descriptor_type, _, _, rfl, rfl, UInt32.ofNat next_key_index, _, _, rfl, rfl,
        UInt32.ofNat next_change_index, _, rest, rfl, rfl, hstops⟩
      simp only [write_index, List.append_assoc]

/-- Loading returns a wallet or an error, and does not panic. -/
def Returns (secp : Secp256k1) (layout : Layout) (data : List UInt8) : Prop :=
  (∃ wallet, load_from_bytes secp layout data = .ok wallet) ∨ ∃ error, load_from_bytes secp layout data = .error (.err error)

/-- Loading panics exactly on the data in which the beginning of a wallet file is followed by the
    number of items that need more memory than there can be. -/
theorem load_returns_iff (secp : Secp256k1) (layout : Layout) (data : List UInt8) :
    Returns secp layout data ↔ ¬ FileStops secp layout data := by
  rw [← (describes_read_wallet layout).stops_iff]
  unfold Returns load_from_bytes
  cases hread : (read_wallet secp layout).run data with
  | error why =>
    cases why with
    | err error => exact ⟨fun _ ⟨_, hpanics, herror⟩ => (by cases herror; cases hpanics), fun _ => .inr ⟨error, rfl⟩⟩
    | capacity_overflow =>
      refine ⟨?_, fun hnot => (hnot ⟨_, rfl, rfl⟩).elim⟩
      rintro (⟨_, hok⟩ | ⟨_, herror⟩)
      · cases hok
      · cases herror
  | ok result => exact ⟨fun _ ⟨_, _, herror⟩ => (nomatch herror), fun _ => .inl ⟨result.1, rfl⟩⟩

/-- Nine bytes announce a name of 2^64 - 1 bytes. -/
theorem announced_name_panics :
    ¬ ∃ (secp : Secp256k1) (layout : Layout), Returns secp layout (List.replicate 9 0xff) := by
  rintro ⟨secp, layout, hreturns⟩
  have hexceeds : Exceeds id (List.replicate 9 0xff) :=
    ⟨2 ^ 64 - 1, _, [], .inr (.inr (.inr ⟨by decide, rfl⟩)), by decide, by decide⟩
  obtain ⟨why, hpanics, hread⟩ := (@describes_read_wallet secp layout).stops_iff.mpr (.inl hexceeds)
  cases hpanics
  unfold Returns load_from_bytes at hreturns
  rw [hread] at hreturns
  obtain ⟨_, hok⟩ | ⟨_, herror⟩ := hreturns
  · cases hok
  · cases herror

end qubitcoin.wallet.file
