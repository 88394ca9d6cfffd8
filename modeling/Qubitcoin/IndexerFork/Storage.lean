import Qubitcoin.Indexer.State
import Qubitcoin.Coins.Cache
import Qubitcoin.Lib.Chunks

/-! `qubitcoin-indexer-fork/storage.rs`: the store of an indexer that runs ahead of a confirmed
    state, and when a snapshot of it restores another store. What the upstream answers comes in
    through the two caches; the store does not call it. -/

open qubitcoin.indexer

namespace qubitcoin.indexer_fork.storage

structure MemStorage where
  overlay : HashMap Bytes Bytes
  appends : HashMap Bytes (List (UInt32 × Bytes))
  projected_height : UInt32
  negative_cache : HashMap Bytes Unit
  deriving DecidableEq

namespace MemStorage

def new (projected_height : UInt32) : MemStorage := ⟨∅, ∅, projected_height, ∅⟩

variable (self : MemStorage)

def reset (new_projected_height : UInt32) : MemStorage := ⟨∅, ∅, new_projected_height, ∅⟩

def seed (key value : Bytes) : MemStorage := { self with overlay := self.overlay.insert key value }

def local_get (key : Bytes) : Option Bytes := self.overlay.lookup key

def is_negative_cached (key : Bytes) : Bool := (self.negative_cache.lookup key).isSome

def cache_upstream_hit (key value : Bytes) : MemStorage := { self with overlay := self.overlay.insert key value }

def cache_upstream_miss (key : Bytes) : MemStorage :=
  { self with negative_cache := self.negative_cache.insert key () }

def get (key : Bytes) : Option Bytes := self.local_get key

/-- The last entry of the history of a key, or its value in the overlay. -/
def get_latest (key : Bytes) : Option Bytes :=
  match self.appends.lookup key with
  | some history =>
    match history.getLast? with
    | some (_, v) => some v
    | none => self.local_get key
  | none => self.local_get key

/-- The number of entries, as a `u32`. -/
def get_length (key : Bytes) : UInt32 :=
  match self.appends.lookup key with
  | some history => UInt32.ofNat history.length
  | none => 0

def tip_height : UInt32 := self.projected_height

def put (key value : Bytes) : MemStorage := { self with overlay := self.overlay.insert key value }

/-- Append to the history of a key. The value is written to the overlay too. -/
def append (key value : Bytes) (height : UInt32) : MemStorage :=
  { self with
    appends := self.appends.insert key ((self.appends.lookup key).getD [] ++ [(height, value)])
    overlay := self.overlay.insert key value }

def set_tip_height (height : UInt32) : MemStorage := { self with projected_height := height }

def delete_batch (keys : List Bytes) : MemStorage :=
  { self with overlay := keys.foldl (fun overlay key => overlay.erase key) self.overlay }

/-- A count, and the pairs of the overlay in the order of its iteration. -/
def export_bytes (order : List (Bytes × Bytes)) : Bytes :=
  littleEndian.toBytes 4 order.length ++ order.flatMap chunks.write_pair

/-- What an import reports where the bytes end early. -/
def truncated : chunks.PairCut → String
  | .first .length => "import_bytes: truncated key length"
  | .first .bytes => "import_bytes: truncated key"
  | .second .length => "import_bytes: truncated value length"
  | .second .bytes => "import_bytes: truncated value"

/-- Replace the overlay. The result stands beside the store. -/
def import_bytes (data : Bytes) : MemStorage × Except String Nat :=
  match chunks.read_nat data with
  | none => (self, .error "import_bytes: truncated header")
  | some (count, rest) =>
    let (pairs, result) := chunks.read_pairs count rest
    match result with
    | .ok _ => ({ self with overlay := chunks.fill pairs }, .ok pairs.length)
    | .error cut => (self, .error (truncated cut))

/-- The map that is collected into a list: the length of the history of a key, or one for a key
    of the overlay alone. -/
def keys_with_lengths : HashMap Bytes UInt32 :=
  let out := (chunks.pairs self.appends).foldl (fun out pair => out.insert pair.1 (UInt32.ofNat pair.2.length)) ∅
  self.overlay.keys.foldl (fun out key => if (out.lookup key).isSome then out else out.insert key 1) out

end MemStorage

/-- The calls that change a store. -/
inductive Op where
  | put (key value : Bytes)
  | seed (key value : Bytes)
  | append (key value : Bytes) (height : UInt32)
  | set_tip_height (height : UInt32)
  | cache_upstream_hit (key value : Bytes)
  | cache_upstream_miss (key : Bytes)
  | reset (new_projected_height : UInt32)

def Op.apply (storage : MemStorage) : Op → MemStorage
  | .put key value => storage.put key value
  | .seed key value => storage.seed key value
  | .append key value height => storage.append key value height
  | .set_tip_height height => storage.set_tip_height height
  | .cache_upstream_hit key value => storage.cache_upstream_hit key value
  | .cache_upstream_miss key => storage.cache_upstream_miss key
  | .reset new_projected_height => .reset new_projected_height

def reached (projected_height : UInt32) (ops : List Op) : MemStorage := ops.foldl Op.apply (.new projected_height)

/-- A history is made by its first entry. -/
def Histories (storage : MemStorage) : Prop := ∀ key history, storage.appends.lookup key = some history → history ≠ []

theorem histories_apply {storage : MemStorage} (hstorage : Histories storage) (op : Op) : Histories (op.apply storage) := by
  cases op with
  | append key value height =>
    intro query history hlookup
    dsimp only [Op.apply, MemStorage.append] at hlookup
    by_cases heq : query = key
    · rw [heq, AList.lookup_insert] at hlookup
      rw [← Option.some.inj hlookup]
      exact List.concat_ne_nil _ _
    · rw [AList.lookup_insert_ne heq] at hlookup
      exact hstorage query history hlookup
  | reset _ => exact fun key history hlookup => nomatch hlookup
  | put _ _ | seed _ _ | set_tip_height _ | cache_upstream_hit _ _ | cache_upstream_miss _ => exact hstorage

theorem histories_reached (projected_height : UInt32) (ops : List Op) : Histories (reached projected_height ops) := by
  unfold reached
  have hnew : Histories (.new projected_height) := fun key history hlookup => nomatch hlookup
  generalize MemStorage.new projected_height = storage at hnew
  induction ops generalizing storage with
  | nil => exact hnew
  | cons op ops ih => exact ih _ (histories_apply hnew op)

theorem lookup_foldl_or_insert (keys : List Bytes) (out : HashMap Bytes UInt32) (query : Bytes) :
    (keys.foldl (fun out key => if (out.lookup key).isSome then out else out.insert key 1) out).lookup query =
      if (out.lookup query).isSome then out.lookup query else if query ∈ keys then some 1 else none := by
  induction keys generalizing out with
  | nil =>
    rw [List.foldl_nil]
    cases out.lookup query <;> simp
  | cons key keys ih =>
    rw [List.foldl_cons, ih]
    by_cases hkey : (out.lookup key).isSome = true
    · rw [if_pos hkey]
      by_cases heq : query = key
      · rw [heq, if_pos hkey, if_pos hkey]
      · simp [heq]
    · rw [if_neg hkey]
      by_cases heq : query = key
      · subst heq
        rw [AList.lookup_insert, if_neg hkey]
        simp
      · rw [AList.lookup_insert_ne heq]
        simp [heq]

theorem lookup_keys_with_lengths (storage : MemStorage) (key : Bytes) :
    storage.keys_with_lengths.lookup key =
      match storage.appends.lookup key with
      | some history => some (UInt32.ofNat history.length)
      | none => (storage.overlay.lookup key).map fun _ => 1 := by
  have hout : ((chunks.pairs storage.appends).foldl
      (fun out pair => out.insert pair.1 (UInt32.ofNat pair.2.length)) (∅ : HashMap Bytes UInt32)).lookup key =
      (storage.appends.lookup key).map fun history => UInt32.ofNat history.length := by
    have hfill : (chunks.pairs storage.appends).foldl
        (fun out pair => out.insert pair.1 (UInt32.ofNat pair.2.length)) (∅ : HashMap Bytes UInt32) =
        chunks.fill ((chunks.pairs storage.appends).map fun pair => (pair.1, UInt32.ofNat pair.2.length)) := by
      rw [chunks.fill, List.foldl_map]
    have hnodup : (((chunks.pairs storage.appends).map fun pair => (pair.1, UInt32.ofNat pair.2.length)).map
        Prod.fst).Nodup := by
      rw [List.map_map]
      exact (chunks.pairs_map_fst storage.appends).symm ▸ storage.appends.keys_nodup
    rw [hfill]
    apply Option.ext
    intro length
    rw [chunks.lookup_fill hnodup, List.mem_map, Option.map_eq_some_iff]
    constructor
    · rintro ⟨⟨other, history⟩, hmem, heq⟩
      obtain ⟨rfl, rfl⟩ := Prod.mk.inj heq
      exact ⟨history, chunks.mem_pairs.mp hmem, rfl⟩
    · rintro ⟨history, hlookup, rfl⟩
      exact ⟨(key, history), chunks.mem_pairs.mpr hlookup, rfl⟩
  unfold MemStorage.keys_with_lengths
  rw [lookup_foldl_or_insert, hout]
  cases storage.appends.lookup key with
  | some history => rfl
  | none =>
    rw [Option.map_none, if_neg (by decide)]
    dsimp only
    have hmem : key ∈ storage.overlay.keys ↔ (storage.overlay.lookup key).isSome = true :=
      (AList.mem_keys.symm.trans AList.lookup_isSome.symm)
    cases hlookup : storage.overlay.lookup key with
    | none => rw [if_neg (by rw [hmem, hlookup]; decide), Option.map_none]
    | some value => rw [if_pos (by rw [hmem, hlookup]; rfl), Option.map_some]

def SameAnswers (storage other : MemStorage) : Prop :=
  storage.tip_height = other.tip_height ∧
    ∀ key, storage.get key = other.get key ∧ storage.get_latest key = other.get_latest key ∧
      storage.get_length key = other.get_length key ∧
      storage.keys_with_lengths.lookup key = other.keys_with_lengths.lookup key

/-- What a history shows: its length, as a `u32`, and its last value. -/
def shown (history : List (UInt32 × Bytes)) : UInt32 × Option Bytes :=
  (UInt32.ofNat history.length, history.getLast?.map Prod.snd)

/-- What an import does not touch is the same in both stores: the tip height, the keys with a
    history, and what these histories show. -/
def Agree (storage other : MemStorage) : Prop :=
  storage.projected_height = other.projected_height ∧
    ∀ key, (storage.appends.lookup key).map shown = (other.appends.lookup key).map shown

/-- The number of pairs and the lengths of their parts can be written in 32 bits. -/
def Fits (order : List (Bytes × Bytes)) : Prop := order.length < 2 ^ 32 ∧ ∀ pair ∈ order, chunks.Fits pair

theorem one_ne_zero_listed (overlay : Option Bytes) : overlay.map (fun _ => (1 : UInt32)) ≠ some 0 := by
  cases overlay with
  | none => exact nofun
  | some value =>
    intro heq
    have hone : (1 : UInt32) = 0 := Option.some.inj heq
    exact absurd hone (by decide)

theorem sameAnswers_iff {storage other : MemStorage} (hstorage : Histories storage) (hother : Histories other)
    (hoverlay : ∀ key, storage.overlay.lookup key = other.overlay.lookup key) :
    SameAnswers storage other ↔ Agree storage other := by
  refine and_congr Iff.rfl (forall_congr' fun key => ?_)
  have hget : storage.get key = other.get key := hoverlay key
  rw [lookup_keys_with_lengths, lookup_keys_with_lengths, MemStorage.get_latest, MemStorage.get_latest,
    MemStorage.get_length, MemStorage.get_length, hoverlay key]
  cases hfirst : storage.appends.lookup key with
  | none =>
    cases hsecond : other.appends.lookup key with
    | none => exact ⟨fun _ => rfl, fun _ => ⟨hget, hget, rfl, rfl⟩⟩
    | some history =>
      -- a history of one store alone is seen by its length and by the list of keys together
      refine ⟨fun hsame => ?_, fun hagree => nomatch hagree⟩
      obtain ⟨-, -, hlength, hlisted⟩ := hsame
      dsimp only at hlength hlisted
      rw [← hlength] at hlisted
      exact absurd hlisted (one_ne_zero_listed _)
  | some history =>
    cases hsecond : other.appends.lookup key with
    | none =>
      refine ⟨fun hsame => ?_, fun hagree => nomatch hagree⟩
      obtain ⟨-, -, hlength, hlisted⟩ := hsame
      dsimp only at hlength hlisted
      rw [hlength] at hlisted
      exact absurd hlisted.symm (one_ne_zero_listed _)
    | some history' =>
      obtain ⟨before, ⟨height, value⟩, hlast⟩ := List.eq_nil_or_concat history |>.resolve_left (hstorage key history hfirst)
      obtain ⟨before', ⟨height', value'⟩, hlast'⟩ :=
        List.eq_nil_or_concat history' |>.resolve_left (hother key history' hsecond)
      subst hlast hlast'
      simp [shown, hget, and_comm]

theorem import_bytes_export_bytes {order : List (Bytes × Bytes)} (hfits : Fits order) (storage : MemStorage) :
    storage.import_bytes (MemStorage.export_bytes order) =
      ({ storage with overlay := chunks.fill order }, .ok order.length) := by
  have hpairs := chunks.read_pairs_write_pair hfits.2 []
  rw [List.append_nil] at hpairs
  rw [MemStorage.import_bytes, MemStorage.export_bytes, chunks.read_nat_toBytes hfits.1]
  dsimp only
  rw [hpairs]

theorem fits_of_import {storage after : MemStorage} {data : Bytes} {count : Nat}
    (himport : storage.import_bytes data = (after, .ok count)) :
    ∃ pairs, after = { storage with overlay := chunks.fill pairs } ∧ pairs.length < 2 ^ 32 ∧
      ∀ pair ∈ pairs, chunks.Fits pair := by
  unfold MemStorage.import_bytes at himport
  split at himport
  · cases himport
  · next n rest hread =>
    obtain ⟨hlength, hfits⟩ := @chunks.read_pairs_fits n rest
    dsimp only at himport
    split at himport
    · cases himport
      exact ⟨_, rfl, Nat.lt_of_le_of_lt hlength (chunks.read_nat_lt hread), hfits⟩
    · cases himport

theorem fits_of_restored {overlay : HashMap Bytes Bytes} {order pairs : List (Bytes × Bytes)}
    (horder : order.Perm (chunks.pairs overlay)) (hlength : pairs.length < 2 ^ 32)
    (hfits : ∀ pair ∈ pairs, chunks.Fits pair)
    (hsame : ∀ key, (chunks.fill pairs).lookup key = overlay.lookup key) : Fits order := by
  have hmem : ∀ pair ∈ order, pair ∈ pairs := by
    rintro ⟨key, value⟩ hpair
    have hlookup := chunks.mem_pairs.mp (horder.mem_iff.mp hpair)
    exact chunks.mem_of_lookup_fill ((hsame key).trans hlookup)
  have hnodup : order.Nodup := by
    have hkeys : (order.map Prod.fst).Nodup := by
      rw [(horder.map Prod.fst).nodup_iff, chunks.pairs_map_fst]
      exact overlay.keys_nodup
    exact hkeys.of_map _
  exact ⟨Nat.lt_of_le_of_lt (hnodup.subperm hmem).length_le hlength, fun pair hpair => hfits pair (hmem pair hpair)⟩

/-- Importing a snapshot of one store into another makes it answer like the first exactly if
    the overlay can be written and the two stores agree in what a snapshot leaves out. -/
theorem import_restores_iff (height height' : UInt32) (ops ops' : List Op) {order : List (Bytes × Bytes)}
    (horder : order.Perm (chunks.pairs (reached height ops).overlay)) :
    (∃ after count, (reached height' ops').import_bytes (MemStorage.export_bytes order) = (after, .ok count) ∧
        SameAnswers after (reached height ops)) ↔
      Fits order ∧ Agree (reached height' ops') (reached height ops) := by
  have hsource := histories_reached height ops
  have htarget := histories_reached height' ops'
  constructor
  · rintro ⟨after, count, himport, hsame⟩
    obtain ⟨pairs, rfl, hlength, hpairs⟩ := fits_of_import himport
    have hoverlay : ∀ key, (chunks.fill pairs).lookup key = (reached height ops).overlay.lookup key :=
      fun key => (hsame.2 key).1
    have hafter : Histories { reached height' ops' with overlay := chunks.fill pairs } := htarget
    exact ⟨fits_of_restored horder hlength hpairs hoverlay, (sameAnswers_iff hafter hsource hoverlay).mp hsame⟩
  · rintro ⟨hfits, hagree⟩
    have hafter : Histories { reached height' ops' with overlay := chunks.fill order } := htarget
    exact ⟨_, _, import_bytes_export_bytes hfits _,
      (sameAnswers_iff hafter hsource fun key => chunks.lookup_fill_pairs horder key).mpr hagree⟩

/-- Two values and a history of two entries. -/
def exported_calls : List Op :=
  [.put [0x61] [1], .append [0x68] [2] 5, .append [0x68] [3] 7, .put [0x62] [4, 4]]

/-- A history under the same key that ends alike, and another value. -/
def replaced_calls : List Op := [.append [0x68] [9] 6, .put [0x63] [5], .append [0x68] [3] 7]

/-- The overlay is written in another order than it is kept, and replaces another one. -/
theorem import_restores_iff_histories :
    (reached 7 replaced_calls).get [0x62] = none ∧
      ∃ after count, (reached 7 replaced_calls).import_bytes
          (MemStorage.export_bytes [([0x61], [1]), ([0x68], [3]), ([0x62], [4, 4])]) = (after, .ok count) ∧
        SameAnswers after (reached 7 exported_calls) := by
  have horder : [([0x61], [1]), ([0x68], [3]), ([0x62], [4, 4])].Perm (chunks.pairs (reached 7 exported_calls).overlay) := by
    decide
  have hfits : Fits [([0x61], [1]), ([0x68], [3]), ([0x62], [4, 4])] := by
    refine ⟨by decide, ?_⟩
    unfold chunks.Fits
    decide
  have hagree : Agree (reached 7 replaced_calls) (reached 7 exported_calls) := by
    have htarget : (reached 7 replaced_calls).appends = (∅ : HashMap Bytes _).insert [0x68] [(6, [9]), (7, [3])] :=
      AList.ext (by decide)
    have hsource : (reached 7 exported_calls).appends = (∅ : HashMap Bytes _).insert [0x68] [(5, [2]), (7, [3])] :=
      AList.ext (by decide)
    refine ⟨rfl, fun key => ?_⟩
    rw [htarget, hsource]
    by_cases heq : key = [0x68]
    · rw [heq, AList.lookup_insert, AList.lookup_insert]
      rfl
    · rw [AList.lookup_insert_ne heq, AList.lookup_insert_ne heq]
  exact ⟨by decide, (import_restores_iff 7 7 exported_calls replaced_calls horder).mpr ⟨hfits, hagree⟩⟩

/-- `v` is put for `k` in one store and `w` is appended to `k` in the other. After the import
    the other still answers `w`, and still counts one entry. -/
theorem import_keeps_histories :
    (reached 5 [.put [0x6b] [0x76]]).get_latest [0x6b] = some [0x76] ∧
      (reached 5 [.put [0x6b] [0x76]]).get_length [0x6b] = 0 ∧ (reached 5 [.put [0x6b] [0x76]]).tip_height = 5 ∧
      chunks.pairs (reached 5 [.put [0x6b] [0x76]]).overlay = [([0x6b], [0x76])] ∧
      ((reached 9 [.append [0x6b] [0x77] 1]).import_bytes (MemStorage.export_bytes [([0x6b], [0x76])])).2 = .ok 1 ∧
      ((reached 9 [.append [0x6b] [0x77] 1]).import_bytes
        (MemStorage.export_bytes [([0x6b], [0x76])])).1.get_latest [0x6b] = some [0x77] ∧
      ((reached 9 [.append [0x6b] [0x77] 1]).import_bytes
        (MemStorage.export_bytes [([0x6b], [0x76])])).1.get_length [0x6b] = 1 ∧
      ((reached 9 [.append [0x6b] [0x77] 1]).import_bytes
        (MemStorage.export_bytes [([0x6b], [0x76])])).1.tip_height = 9 := by
  decide +kernel

end qubitcoin.indexer_fork.storage
