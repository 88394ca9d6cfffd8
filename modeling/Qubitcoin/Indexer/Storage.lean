import Qubitcoin.Indexer.State
import Qubitcoin.Coins.Cache
import Qubitcoin.Lib.MapTotal
import Mathlib.Data.List.Sort

/-! `qubitcoin-indexer/storage.rs` and `rollback.rs`: the append-only lists of an indexer
    over its database, and the two ways to take blocks back. The database does not fail. -/

open qubitcoin.indexer.state

namespace qubitcoin.indexer.storage

structure IndexerStorage where
  db : HashMap Bytes Bytes

abbrev WriteBatch := List (kv.Op Bytes Bytes)

/-- A database that has just been created. -/
def IndexerStorage.new : IndexerStorage := ⟨∅⟩

def IndexerStorage.get (self : IndexerStorage) (key : Bytes) : Option Bytes := self.db.lookup key

def IndexerStorage.write_raw_batch (self : IndexerStorage) (batch : WriteBatch) : IndexerStorage :=
  ⟨kv.write self.db batch⟩

def IndexerStorage.put (self : IndexerStorage) (key value : Bytes) : IndexerStorage :=
  self.write_raw_batch [.put key value]

def IndexerStorage.delete_batch (self : IndexerStorage) (keys : List Bytes) : IndexerStorage :=
  self.write_raw_batch (keys.map .delete)

/-- Read a `u32`. -/
def IndexerStorage.get_u32 (self : IndexerStorage) (key : Bytes) : Option UInt32 :=
  match self.get key with
  | some data => if 4 ≤ data.length then some (from_le_bytes data) else none
  | none => none

def IndexerStorage.get_length (self : IndexerStorage) (key : Bytes) : UInt32 :=
  (self.get_u32 (length_key key)).getD 0

def IndexerStorage.get_at_index (self : IndexerStorage) (key : Bytes) (index : UInt32) : Option Bytes :=
  self.get (index_key key index)

def IndexerStorage.get_latest (self : IndexerStorage) (key : Bytes) : Option Bytes :=
  match self.get_u32 (length_key key) with
  | some len => if len = 0 then none else self.get (index_key key (len - 1))
  | none => none

def IndexerStorage.tip_height (self : IndexerStorage) : UInt32 := (self.get_u32 HEIGHT_KEY).getD 0

def IndexerStorage.set_tip_height (self : IndexerStorage) (height : UInt32) : IndexerStorage :=
  self.put HEIGHT_KEY (to_le_bytes height)

def IndexerStorage.get_canonical_hash (self : IndexerStorage) (height : UInt32) : Option Bytes :=
  self.get (height_to_hash_key height)

/-- From this height on entries may be orphaned. -/
def IndexerStorage.reorg_height (self : IndexerStorage) : Option UInt32 := self.get_u32 REORG_HEIGHT_KEY

/-- The height and, where it is given, the start of the block hash. -/
def height_record (height : UInt32) (block_hash8 : Option Bytes) : Bytes :=
  match block_hash8 with
  | some hash => if 8 ≤ hash.length then to_le_bytes height ++ hash.take 8 else to_le_bytes height
  | none => to_le_bytes height

/-- The locals of the loops that collect a batch. -/
structure Pending where
  batch : WriteBatch
  length_cache : HashMap Bytes UInt32

/-- The length of a list, with the writes that are pending. -/
def Pending.current_len (self : Pending) (storage : IndexerStorage) (key : Bytes) : UInt32 :=
  (self.length_cache.lookup key).getD (storage.get_length key)

def Pending.new : Pending := ⟨[], ∅⟩

/-- The loop body of `append_batch_with_hash`. -/
def Pending.append (storage : IndexerStorage) (record : Bytes) (self : Pending) (pair : Bytes × Bytes) : Pending :=
  let current_len := self.current_len storage pair.1
  { batch := self.batch ++ [
      .put (length_key pair.1) (to_le_bytes (current_len + 1)),
      .put (index_key pair.1 current_len) pair.2,
      .put (entry_height_key pair.1 current_len) record]
    length_cache := self.length_cache.insert pair.1 (current_len + 1) }

/-- Append all pairs of a block, with its key set, its hash and the new tip. A block without
    pairs leaves no trace. -/
def IndexerStorage.append_batch_with_hash (self : IndexerStorage) (pairs : List (Bytes × Bytes)) (height : UInt32)
    (block_hash8 : Option Bytes) : IndexerStorage :=
  if pairs.isEmpty then self
  else
    let pending := pairs.foldl (Pending.append self (height_record height block_hash8)) .new
    let modified_keys := pairs.map Prod.fst
    let hash_mapping : WriteBatch :=
      match block_hash8 with
      | some hash => if 8 ≤ hash.length then [.put (height_to_hash_key height) (hash.take 8)] else []
      | none => []
    self.write_raw_batch (pending.batch ++
      [.put (height_keyset_key height) (encode_key_set modified_keys)] ++ hash_mapping ++
      [.put HEIGHT_KEY (to_le_bytes height)])

/-- The loop of `get_latest_canonical` over the entries below an index. -/
def IndexerStorage.latest_canonical_below (self : IndexerStorage) (key : Bytes) (rh : UInt32) : Nat → Option Bytes
  | 0 => none
  | n + 1 =>
    let idx := UInt32.ofNat n
    match self.get (entry_height_key key idx) with
    | some h_data =>
      if 4 ≤ h_data.length then
        let entry_height := from_le_bytes h_data
        if entry_height < rh then self.get_at_index key idx
        else if 12 ≤ h_data.length then
          match self.get_canonical_hash entry_height with
          | some canonical =>
            if 8 ≤ canonical.length ∧ canonical.take 8 = (h_data.drop 4).take 8 then self.get_at_index key idx
            -- an entry of a block that has been replaced
            else self.latest_canonical_below key rh n
          | none => self.get_at_index key idx
        else self.get_at_index key idx
      else self.get_at_index key idx
    | none => self.get_at_index key idx

def IndexerStorage.get_latest_canonical (self : IndexerStorage) (key : Bytes) : Option Bytes :=
  let len := self.get_length key
  if len = 0 then none
  else
    match self.reorg_height with
    | none => self.get_at_index key (len - 1)
    | some rh => self.latest_canonical_below key rh len.toNat

/-- The heights from one to another, both included. -/
def heights (first last : UInt32) : List UInt32 :=
  (List.range' first.toNat (last.toNat + 1 - first.toNat)).map UInt32.ofNat

/-- Mark the entries above a height as orphaned. They and the key sets stay. -/
def rollback_deferred (storage : IndexerStorage) (target_height : UInt32) : IndexerStorage × UInt32 :=
  let current_tip := storage.tip_height
  if current_tip ≤ target_height then (storage, 0)
  else
    let reorg_h := target_height + 1
    let effective := (storage.reorg_height.map fun existing => min existing reorg_h).getD reorg_h
    let above := heights (target_height + 1) current_tip
    (storage.write_raw_batch ([.put REORG_HEIGHT_KEY (to_le_bytes effective)] ++
        above.map (fun h => .delete (height_to_hash_key h)) ++
        [.put HEIGHT_KEY (to_le_bytes target_height)]),
      UInt32.ofNat above.length)

/-- The entry at the end of a list is removed. -/
def Pending.pop (self : Pending) (key : Bytes) (idx : UInt32) : Pending where
  batch := self.batch ++ [
    .delete (index_key key idx),
    .delete (entry_height_key key idx),
    .put (length_key key) (to_le_bytes idx)]
  length_cache := self.length_cache.insert key idx

/-- The locals of the rollback loops, with the number of entries removed. -/
structure Removal extends Pending where
  deleted : UInt32

/-- Whether an entry from the reorganisation on belongs to the block that is now at its
    height. -/
def is_canonical (storage : IndexerStorage) (h_data : Bytes) : Bool :=
  if 12 ≤ h_data.length then
    match storage.get_canonical_hash (from_le_bytes h_data) with
    | some ch => decide (8 ≤ ch.length ∧ ch.take 8 = (h_data.drop 4).take 8)
    | none => false
  else true

/-- The body of the inner loop of `prune_orphaned`. -/
def Removal.prune_key (storage : IndexerStorage) (reorg_h : UInt32) (self : Removal) (key : Bytes) : Removal :=
  let current_len := self.current_len storage key
  if current_len = 0 then self
  else
    let idx := current_len - 1
    match storage.get (entry_height_key key idx) with
    | some h_data =>
      if 4 ≤ h_data.length ∧ reorg_h ≤ from_le_bytes h_data ∧ is_canonical storage h_data = false then
        { self.pop key idx with deleted := self.deleted + 1 }
      else self
    | none => self

/-- The body of the outer loop of `prune_orphaned`. -/
def Removal.prune_height (storage : IndexerStorage) (reorg_h : UInt32) (self : Removal) (h : UInt32) : Removal :=
  match storage.get (height_keyset_key h) with
  | some keyset_data =>
    let self := (decode_key_set keyset_data).foldl (Removal.prune_key storage reorg_h) self
    { self with batch := self.batch ++ [.delete (height_keyset_key h)] }
  | none => self

/-- Delete the orphaned entries that the key sets lead to and clear the marker. The `u32` sum
    wraps, as in a build without overflow checks. -/
def prune_orphaned (storage : IndexerStorage) : IndexerStorage × UInt32 :=
  match storage.reorg_height with
  | none => (storage, 0)
  | some reorg_h =>
    let tip := storage.tip_height
    let removal := (heights reorg_h (max tip (reorg_h + 10000))).foldl (Removal.prune_height storage reorg_h)
      ⟨.new, 0⟩
    (storage.write_raw_batch (removal.batch ++ [.delete REORG_HEIGHT_KEY]), removal.deleted)

/-- The body of the inner loop of `rollback_to_height`. -/
def Removal.rollback_key (storage : IndexerStorage) (self : Removal) (key : Bytes) : Removal :=
  let current_len := self.current_len storage key
  if 0 < current_len then { self.pop key (current_len - 1) with deleted := self.deleted + 1 } else self

/-- The outer loop of `rollback_to_height`. It stops at a height without a key set, and
    tells whether it did. -/
def Removal.rollback_heights (storage : IndexerStorage) (self : Removal) : List UInt32 → Removal × Bool
  | [] => (self, false)
  | h :: hs =>
    match storage.get (height_keyset_key h) with
    | some keyset_data =>
      let self := (decode_key_set keyset_data).foldl (Removal.rollback_key storage) self
      Removal.rollback_heights storage { self with batch := self.batch ++ [.delete (height_keyset_key h)] } hs
    | none => (self, true)

/-- The pairs of the database in the order of their keys. -/
def IndexerStorage.raw_iterator (self : IndexerStorage) : List (Bytes × Bytes) :=
  (self.db.entries.map fun entry => (entry.1, entry.2)).insertionSort fun a b => a.1 ≤ b.1

/-- The length counters that the scan finds: any key that ends in `u32::MAX`. -/
def length_keys (storage : IndexerStorage) : List (Bytes × UInt32) :=
  storage.raw_iterator.filterMap fun (key, value) =>
    if 4 ≤ key.length ∧ to_le_bytes U32_MAX <:+ key ∧ 4 ≤ value.length then
      some (key.take (key.length - 4), from_le_bytes value)
    else none

/-- The loop of `rollback_legacy` over the entries of a list below an index: the keys to
    delete, the new length and the number of entries removed. -/
def legacy_below (storage : IndexerStorage) (base_key : Bytes) (target_height : UInt32) :
    Nat → List Bytes × UInt32 × UInt32 → List Bytes × UInt32 × UInt32
  | 0, found => found
  | n + 1, (keys_to_delete, new_len, deleted) =>
    let idx := UInt32.ofNat n
    let h_key := entry_height_key base_key idx
    match storage.get h_key with
    | some h_data =>
      if 4 ≤ h_data.length then
        if target_height < from_le_bytes h_data then
          legacy_below storage base_key target_height n
            (keys_to_delete ++ [index_key base_key idx, h_key], idx, deleted + 1)
        else (keys_to_delete, new_len, deleted)
      else legacy_below storage base_key target_height n (keys_to_delete, new_len, deleted)
    | none => legacy_below storage base_key target_height n (keys_to_delete, new_len, deleted)

/-- The loop body of `rollback_legacy`. -/
def legacy_key (target_height : UInt32) (state : IndexerStorage × UInt32) (entry : Bytes × UInt32) :
    IndexerStorage × UInt32 :=
  let (storage, deleted) := state
  let (base_key, len) := entry
  let (keys_to_delete, new_len, deleted) := legacy_below storage base_key target_height len.toNat ([], len, deleted)
  if keys_to_delete.isEmpty then (storage, deleted)
  else ((storage.delete_batch keys_to_delete).put (length_key base_key) (to_le_bytes new_len), deleted)

/-- Scan the whole database for entries above a height. -/
def rollback_legacy (storage : IndexerStorage) (target_height : UInt32) : IndexerStorage × UInt32 :=
  let (storage, deleted) := (length_keys storage).foldl (legacy_key target_height) (storage, 0)
  (storage.set_tip_height target_height, deleted)

/-- Remove the entries above a height, by the key sets of the heights and, where one is
    missing, by a scan. -/
def rollback_to_height (storage : IndexerStorage) (target_height : UInt32) : IndexerStorage × UInt32 :=
  let current_tip := storage.tip_height
  if current_tip ≤ target_height then (storage.set_tip_height target_height, 0)
  else
    let (removal, needs_legacy_scan) :=
      Removal.rollback_heights storage ⟨.new, 0⟩ (heights (target_height + 1) current_tip).reverse
    let written := storage.write_raw_batch (removal.batch ++ [.put HEIGHT_KEY (to_le_bytes target_height)])
    if needs_legacy_scan then
      let (storage, legacy_deleted) := rollback_legacy written target_height
      (storage, removal.deleted + legacy_deleted)
    else (written, removal.deleted)

end qubitcoin.indexer.storage
