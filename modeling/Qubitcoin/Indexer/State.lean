import Qubitcoin.Indexer.Manager

/-! `qubitcoin-indexer/state.rs`: the physical keys of the append-only lists and the
    encoding of key sets. -/

namespace qubitcoin.indexer.state

/-- `to_le_bytes` of a `u32`. -/
def to_le_bytes (n : UInt32) : Bytes := littleEndian.toBytes 4 n.toNat

/-- `from_le_bytes` of the first four bytes. -/
def from_le_bytes (data : Bytes) : UInt32 := UInt32.ofNat (littleEndian.ofBytes (data.take 4))

/-- `u32::MAX`. -/
def U32_MAX : UInt32 := 0xffffffff

/-- `__HEIGHT__`: holds the tip height. -/
def HEIGHT_KEY : Bytes := [0x5f, 0x5f, 0x48, 0x45, 0x49, 0x47, 0x48, 0x54, 0x5f, 0x5f]

/-- `__REORG_HEIGHT__`: holds the height from which on entries may be orphaned. -/
def REORG_HEIGHT_KEY : Bytes :=
  [0x5f, 0x5f, 0x52, 0x45, 0x4f, 0x52, 0x47, 0x5f, 0x48, 0x45, 0x49, 0x47, 0x48, 0x54, 0x5f, 0x5f]

/-- `__H2H__/`. -/
def HEIGHT_TO_HASH_PREFIX : Bytes := [0x5f, 0x5f, 0x48, 0x32, 0x48, 0x5f, 0x5f, 0x2f]

/-- `__keyset__/`. -/
def KEYSET_PREFIX : Bytes := [0x5f, 0x5f, 0x6b, 0x65, 0x79, 0x73, 0x65, 0x74, 0x5f, 0x5f, 0x2f]

/-- `/__height__/`. -/
def ENTRY_HEIGHT_INFIX : Bytes := [0x2f, 0x5f, 0x5f, 0x68, 0x65, 0x69, 0x67, 0x68, 0x74, 0x5f, 0x5f, 0x2f]

def length_key (key : Bytes) : Bytes := key ++ to_le_bytes U32_MAX

/-- Where an entry of the list of a key is. -/
def index_key (key : Bytes) (index : UInt32) : Bytes := key ++ to_le_bytes index

def entry_height_key (key : Bytes) (index : UInt32) : Bytes := key ++ ENTRY_HEIGHT_INFIX ++ to_le_bytes index

def height_to_hash_key (height : UInt32) : Bytes := HEIGHT_TO_HASH_PREFIX ++ to_le_bytes height

def height_keyset_key (height : UInt32) : Bytes := KEYSET_PREFIX ++ to_le_bytes height

/-- A count and then, for each key, its length and its bytes. -/
def encode_key_set (keys : List Bytes) : Bytes :=
  to_le_bytes (UInt32.ofNat keys.length) ++
    keys.flatMap fun key => to_le_bytes (UInt32.ofNat key.length) ++ key

/-- The loop of `decode_key_set` over the bytes that are left. It stops where they end early. -/
def decode_keys : Nat → Bytes → List Bytes
  | 0, _ => []
  | count + 1, data =>
    if data.length < 4 then []
    else
      let len := (from_le_bytes data).toNat
      let rest := data.drop 4
      if rest.length < len then []
      else rest.take len :: decode_keys count (rest.drop len)

def decode_key_set (data : Bytes) : List Bytes :=
  if data.length < 4 then []
  else decode_keys (from_le_bytes data).toNat (data.drop 4)

@[simp] theorem length_to_le_bytes (n : UInt32) : (to_le_bytes n).length = 4 := littleEndian.length_toBytes 4 _

theorem from_le_bytes_append (n : UInt32) (rest : Bytes) : from_le_bytes (to_le_bytes n ++ rest) = n := by
  have hfit : n.toNat < 256 ^ 4 := n.toNat_lt
  unfold from_le_bytes
  rw [List.take_left' (length_to_le_bytes n), to_le_bytes, littleEndian.ofBytes_toBytes hfit]
  exact UInt32.ofNat_toNat

@[simp] theorem from_le_bytes_to_le_bytes (n : UInt32) : from_le_bytes (to_le_bytes n) = n := by
  simpa using from_le_bytes_append n []

theorem to_le_bytes_inj {n m : UInt32} : to_le_bytes n = to_le_bytes m ↔ n = m := by
  constructor
  · intro h
    rw [← from_le_bytes_to_le_bytes n, h, from_le_bytes_to_le_bytes]
  · rintro rfl
    rfl

theorem append_to_le_bytes_inj {key key' : Bytes} {n m : UInt32} :
    key ++ to_le_bytes n = key' ++ to_le_bytes m ↔ key = key' ∧ n = m := by
  constructor
  · intro h
    obtain ⟨hkey, hn⟩ := List.append_inj' h (by simp)
    exact ⟨hkey, to_le_bytes_inj.mp hn⟩
  · rintro ⟨rfl, rfl⟩
    rfl

theorem decode_keys_encode (count : Nat) (keys : List Bytes) (hshort : ∀ key ∈ keys, key.length < 2 ^ 32) :
    decode_keys count (keys.flatMap fun key => to_le_bytes (UInt32.ofNat key.length) ++ key) = keys.take count := by
  induction count generalizing keys with
  | zero => simp [decode_keys]
  | succ count ih =>
    cases keys with
    | nil => simp [decode_keys]
    | cons key keys =>
      have hlen : (UInt32.ofNat key.length).toNat = key.length :=
        UInt32.toNat_ofNat_of_lt' (hshort key List.mem_cons_self)
      rw [List.flatMap_cons, List.append_assoc, decode_keys, if_neg (by simp)]
      dsimp only
      rw [from_le_bytes_append, hlen, List.drop_left' (length_to_le_bytes _), if_neg (by simp), List.take_left,
        List.drop_left, ih keys fun key hkey => hshort key (List.mem_cons_of_mem _ hkey), List.take_succ_cons]

theorem decode_encode_key_set {keys : List Bytes} (hshort : ∀ key ∈ keys, key.length < 2 ^ 32) :
    decode_key_set (encode_key_set keys) = keys.take (keys.length % 2 ^ 32) := by
  unfold decode_key_set encode_key_set
  rw [if_neg (by simp), from_le_bytes_append, List.drop_left' (length_to_le_bytes _), decode_keys_encode _ _ hshort,
    UInt32.toNat_ofNat']

/-- What a physical key holds. -/
inductive Record where
  | length (key : Bytes)
  | index (key : Bytes) (n : UInt32)
  | entry_height (key : Bytes) (n : UInt32)
  | keyset (height : UInt32)
  | hash (height : UInt32)
  | tip
  | reorg
  deriving DecidableEq

def Record.key : Record → Bytes
  | .length key => length_key key
  | .index key n => index_key key n
  | .entry_height key n => entry_height_key key n
  | .keyset height => height_keyset_key height
  | .hash height => height_to_hash_key height
  | .tip => HEIGHT_KEY
  | .reorg => REORG_HEIGHT_KEY

/-- The records of the logical keys, and those the storage keeps for itself. A list has no
    entry at `u32::MAX`, where its length is. -/
def Record.Of (keys : Bytes → Prop) : Record → Prop
  | .length key => keys key
  | .index key n => keys key ∧ n ≠ U32_MAX
  | .entry_height key n => keys key ∧ n ≠ U32_MAX
  | _ => True

/-- A set of logical keys whose records, and those of the storage itself, are distinct
    physical keys. The legacy scan takes the prefixes of key sets and hashes for logical keys
    too; these have no entries. Keys of 4 GiB are refused by the database. -/
structure Separate (keys : Bytes → Prop) : Prop where
  distinct : ∀ r r' : Record, r.Of keys → r'.Of keys → r.key = r'.key → r = r'
  keyset_keys : ∀ r : Record, r.Of keys → ∀ n, r.key ≠ entry_height_key KEYSET_PREFIX n
  hash_keys : ∀ r : Record, r.Of keys → ∀ n, r.key ≠ entry_height_key HEIGHT_TO_HASH_PREFIX n
  short : ∀ key, keys key → key.length < 2 ^ 32

theorem Separate.key_inj {keys : Bytes → Prop} (hsep : Separate keys) {r r' : Record} (hof : r.Of keys)
    (hof' : r'.Of keys) : r.key = r'.key ↔ r = r' := by
  constructor
  · exact hsep.distinct r r' hof hof'
  · rintro rfl
    rfl

@[simp] theorem Record.length_key (r : Record) :
    r.key.length = match r with
      | .length key | .index key _ => key.length + 4
      | .entry_height key _ => key.length + 16
      | .keyset _ => 15
      | .hash _ => 12
      | .tip => 10
      | .reorg => 16 := by
  cases r <;>
    simp [Record.key, state.length_key, index_key, entry_height_key, height_keyset_key, height_to_hash_key,
      ENTRY_HEIGHT_INFIX, KEYSET_PREFIX, HEIGHT_TO_HASH_PREFIX, HEIGHT_KEY, REORG_HEIGHT_KEY]

theorem Separate.of_short {keys : Bytes → Prop} (hshort : ∀ key, keys key → 0 < key.length ∧ key.length < 4) :
    Separate keys := by
  have hsize (r : Record) (hof : r.Of keys) : r.key.length < 20 := by
    rw [Record.length_key]
    cases r <;> simp only [Record.Of] at hof <;> grind
  have hprefixed (r : Record) (hof : r.Of keys) {key : Bytes} (hkey : 4 ≤ key.length) (n : UInt32) :
      r.key ≠ entry_height_key key n := by
    intro heq
    have hlength := hsize r hof
    have hlong := Record.length_key (.entry_height key n)
    rw [heq] at hlength
    simp only [Record.key] at hlong
    omega
  refine ⟨?_, fun r hof => hprefixed r hof (by decide), fun r hof => hprefixed r hof (by decide), ?_⟩
  · intro r r' hof hof' hkey
    have hlength := congrArg List.length hkey
    rw [Record.length_key, Record.length_key] at hlength
    cases r <;> cases r' <;> simp only [Record.Of] at hof hof' <;> dsimp only at hlength <;>
      simp only [Record.key, state.length_key, index_key, entry_height_key, height_keyset_key, height_to_hash_key,
        append_to_le_bytes_inj, List.append_left_inj] at hkey <;> grind
  · intro key hkey
    have := hshort key hkey
    omega

end qubitcoin.indexer.state
