import Qubitcoin.Coins.Cache
import Qubitcoin.Chain.Index

/-! `qubitcoin-node/block_index_db.rs`: the records of the block index and the
    database that holds them. -/

open qubitcoin primitives chain coins

namespace qubitcoin.block_index_db

abbrev Bytes := List UInt8

/-- The prefix of the keys of block index entries: `b'b'`. -/
def KEY_BLOCK_INDEX : UInt8 := 0x62

/-- The fields of an entry that are stored. Links and `time_max` are rebuilt. -/
structure BlockIndexRecord where
  block_hash : BlockHash
  version : Int32
  prev_blockhash : BlockHash
  merkle_root : Uint256
  time : UInt32
  bits : UInt32
  nonce : UInt32
  height : Int
  status_bits : UInt32
  file : Int32
  data_pos : UInt32
  undo_pos : UInt32
  tx_count : UInt32
  chain_tx_count : UInt64
  chain_work_bytes : Bytes
  deriving DecidableEq, Repr

def BlockIndexRecord.chain_work (self : BlockIndexRecord) : ArithUint256 :=
  uint256_to_arith (Uint256.from_bytes self.chain_work_bytes)

/-- `to_le_bytes` of a `u32`, and of an `i32` through its bits. -/
def u32_bytes (x : UInt32) : Bytes := littleEndian.toBytes 4 x.toNat

def u64_bytes (x : UInt64) : Bytes := littleEndian.toBytes 8 x.toNat

/-- `from_le_bytes`. -/
def u32_from_bytes (bytes : Bytes) : UInt32 := UInt32.ofNat (littleEndian.ofBytes bytes)

def u64_from_bytes (bytes : Bytes) : UInt64 := UInt64.ofNat (littleEndian.ofBytes bytes)

/-- The 144 bytes of an entry. -/
def serialize_block_index (entry : BlockIndex) : Bytes :=
  u32_bytes (as_u32 entry.height) ++ (u32_bytes entry.version.toUInt32 ++
  (entry.prev_blockhash.data ++ (entry.merkle_root.data ++
  (u32_bytes entry.time ++ (u32_bytes entry.bits ++ (u32_bytes entry.nonce ++
  (u32_bytes entry.status.bits ++ (u32_bytes entry.file.toUInt32 ++ (u32_bytes entry.data_pos ++
  (u32_bytes entry.undo_pos ++ (u32_bytes entry.tx_count ++ (u64_bytes entry.chain_tx_count ++
  (arith_to_uint256 entry.chain_work).data))))))))))))

/-- Read a number of bytes from a cursor. -/
def read_exact (n : Nat) (cursor : Bytes) : Option (Bytes × Bytes) :=
  if n ≤ cursor.length then some (cursor.take n, cursor.drop n) else none

/-- The record in the bytes of a value; `none` is an error of the reader. The hash
    comes from the key. -/
def deserialize_block_index_record (block_hash : BlockHash) (data : Bytes) : Option BlockIndexRecord :=
  if data.length < 144 then none
  else do
    let (height, cursor) ← read_exact 4 data
    let (version, cursor) ← read_exact 4 cursor
    let (prev_blockhash, cursor) ← read_exact 32 cursor
    let (merkle_root, cursor) ← read_exact 32 cursor
    let (time, cursor) ← read_exact 4 cursor
    let (bits, cursor) ← read_exact 4 cursor
    let (nonce, cursor) ← read_exact 4 cursor
    let (status_bits, cursor) ← read_exact 4 cursor
    let (file, cursor) ← read_exact 4 cursor
    let (data_pos, cursor) ← read_exact 4 cursor
    let (undo_pos, cursor) ← read_exact 4 cursor
    let (tx_count, cursor) ← read_exact 4 cursor
    let (chain_tx_count, cursor) ← read_exact 8 cursor
    let (chain_work_bytes, _) ← read_exact 32 cursor
    some {
      block_hash
      version := (u32_from_bytes version).toInt32
      prev_blockhash := Uint256.from_bytes prev_blockhash
      merkle_root := Uint256.from_bytes merkle_root
      time := u32_from_bytes time
      bits := u32_from_bytes bits
      nonce := u32_from_bytes nonce
      height := as_i32 (u32_from_bytes height)
      status_bits := u32_from_bytes status_bits
      file := (u32_from_bytes file).toInt32
      data_pos := u32_from_bytes data_pos
      undo_pos := u32_from_bytes undo_pos
      tx_count := u32_from_bytes tx_count
      chain_tx_count := u64_from_bytes chain_tx_count
      chain_work_bytes }

def block_index_key (hash : BlockHash) : Bytes := KEY_BLOCK_INDEX :: hash.data

/-- The key-value store under the block index. -/
abbrev BlockIndexDB := HashMap Bytes Bytes

def write_block_indices (db : BlockIndexDB) (entries : List BlockIndex) : BlockIndexDB :=
  entries.foldl (fun db entry => db.insert (block_index_key entry.block_hash) (serialize_block_index entry)) db

/-- The record of a stored pair, if the key is one of a block. -/
def load_record (key value : Bytes) : Option BlockIndexRecord :=
  match key with
  | [] => none
  | first :: hash_bytes =>
    if first = KEY_BLOCK_INDEX ∧ hash_bytes.length = 32 then
      deserialize_block_index_record (Uint256.from_bytes hash_bytes) value
    else none

/-- All records. The store lists them in the order of their keys, with those of
    blocks in one range. -/
def load_all (db : BlockIndexDB) : List BlockIndexRecord :=
  db.entries.filterMap fun entry => load_record entry.1 entry.2

def to_record (entry : BlockIndex) : BlockIndexRecord where
  block_hash := entry.block_hash
  version := entry.version
  prev_blockhash := entry.prev_blockhash
  merkle_root := entry.merkle_root
  time := entry.time
  bits := entry.bits
  nonce := entry.nonce
  height := entry.height
  status_bits := entry.status.bits
  file := entry.file
  data_pos := entry.data_pos
  undo_pos := entry.undo_pos
  tx_count := entry.tx_count
  chain_tx_count := entry.chain_tx_count
  chain_work_bytes := (arith_to_uint256 entry.chain_work).data

theorem read_exact_append {n : Nat} {bytes : Bytes} (hlength : bytes.length = n) (rest : Bytes) :
    read_exact n (bytes ++ rest) = some (bytes, rest) := by
  unfold read_exact
  rw [if_pos (by rw [List.length_append]; omega), ← hlength, List.take_left, List.drop_left]

@[simp] theorem length_u32_bytes (x : UInt32) : (u32_bytes x).length = 4 := littleEndian.length_toBytes 4 _

@[simp] theorem length_u64_bytes (x : UInt64) : (u64_bytes x).length = 8 := littleEndian.length_toBytes 8 _

@[simp] theorem length_data (x : Uint256) : x.data.length = 32 := littleEndian.length_toBytes 32 _

@[simp] theorem u32_from_bytes_u32_bytes (x : UInt32) : u32_from_bytes (u32_bytes x) = x := by
  have hfit : x.toNat < 256 ^ 4 := x.toNat_lt
  unfold u32_from_bytes u32_bytes
  rw [littleEndian.ofBytes_toBytes hfit, UInt32.ofNat_toNat]

@[simp] theorem u64_from_bytes_u64_bytes (x : UInt64) : u64_from_bytes (u64_bytes x) = x := by
  have hfit : x.toNat < 256 ^ 8 := x.toNat_lt
  unfold u64_from_bytes u64_bytes
  rw [littleEndian.ofBytes_toBytes hfit, UInt64.ofNat_toNat]

section
variable {A : Type} (next : Bytes × Bytes → Option A)

theorem bind_read_u32 (x : UInt32) (rest : Bytes) :
    (read_exact 4 (u32_bytes x ++ rest) >>= next) = next (u32_bytes x, rest) := by
  rw [read_exact_append (length_u32_bytes x)]
  rfl

theorem bind_read_u64 (x : UInt64) (rest : Bytes) :
    (read_exact 8 (u64_bytes x ++ rest) >>= next) = next (u64_bytes x, rest) := by
  rw [read_exact_append (length_u64_bytes x)]
  rfl

theorem bind_read_data (x : Uint256) (rest : Bytes) :
    (read_exact 32 (x.data ++ rest) >>= next) = next (x.data, rest) := by
  rw [read_exact_append (length_data x)]
  rfl

theorem bind_read_last (x : Uint256) : (read_exact 32 x.data >>= next) = next (x.data, []) := by
  have happend := bind_read_data next x []
  rwa [List.append_nil] at happend

end

theorem length_serialize_block_index (entry : BlockIndex) : (serialize_block_index entry).length = 144 := by
  simp [serialize_block_index]

theorem deserialize_serialize (entry : BlockIndex) (hfits : IntType.i32.fits entry.height) :
    deserialize_block_index_record entry.block_hash (serialize_block_index entry) = some (to_record entry) := by
  have hversion : entry.version.toUInt32.toInt32 = entry.version := rfl
  have hfile : entry.file.toUInt32.toInt32 = entry.file := rfl
  unfold deserialize_block_index_record
  rw [length_serialize_block_index, if_neg (by omega)]
  unfold serialize_block_index
  simp only [bind_read_u32, bind_read_u64, bind_read_data, bind_read_last, u32_from_bytes_u32_bytes,
    u64_from_bytes_u64_bytes, Uint256.from_bytes_data, as_i32_as_u32 hfits, hversion, hfile]
  rfl

theorem block_index_key_injective {hash other : BlockHash} (hkey : block_index_key hash = block_index_key other) :
    hash = other := by
  have hdata : hash.data = other.data := (List.cons.inj hkey).2
  rw [← Uint256.from_bytes_data hash, hdata, Uint256.from_bytes_data]

theorem load_record_key (hash : BlockHash) (value : Bytes) :
    load_record (block_index_key hash) value = deserialize_block_index_record hash value := by
  unfold load_record block_index_key
  dsimp only
  rw [if_pos ⟨rfl, length_data hash⟩, Uint256.from_bytes_data]

theorem chain_work_to_record (entry : BlockIndex) : (to_record entry).chain_work = entry.chain_work :=
  Uint256.from_bytes_data _

end qubitcoin.block_index_db
