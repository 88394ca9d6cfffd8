import Qubitcoin.Coins.Compression
import Qubitcoin.Coins.Flush
import Qubitcoin.Consensus.Wire
import Qubitcoin.Lib.PrefixScan
import Qubitcoin.Validation.Calls

/-! `qubitcoin-common/coins.rs`: the iteration over all stored coins, and what a cache says about
    the coins that are stored under it. -/

open qubitcoin primitives script transaction codec

namespace qubitcoin.coins

def DB_COIN : UInt8 := 0x43
def DB_BEST_BLOCK : UInt8 := 0x42

def OBFUSCATION_KEY_KEY : List UInt8 :=
  [0x0e, 0x00, 0x6f, 0x62, 0x66, 0x75, 0x73, 0x63, 0x61, 0x74, 0x65, 0x5f, 0x6b, 0x65, 0x79]

def coin_db_key (outpoint : OutPoint) : List UInt8 := DB_COIN :: outpoint.encode

def best_block_db_key : List UInt8 := [DB_BEST_BLOCK]

/-- The keys that the database holds. It obfuscates its values, and it has no best block at first. -/
def CoinsViewDB.keys (self : CoinsViewDB) : List (List UInt8) :=
  OBFUSCATION_KEY_KEY :: (if self.best_block.is_null then [] else [best_block_db_key]) ++ self.coins.keys.map coin_db_key

variable (curve : Secp256k1)

/-- What the record of a coin gives back: the form of `Coin::encode`, which keeps no uncompressed key off
    the curve, is decoded. -/
def Coin.read_back (coin : Coin) : Option Coin :=
  match coin.encode with
  | .ok bytes => ((Coin.decode curve).run bytes).toOption.map Prod.fst
  | .error _ => none

/-- The coin under a key, from its record. -/
def CoinsViewDB.read_coin (self : CoinsViewDB) (key : List UInt8) : Option Coin :=
  (self.coins.entries.find? fun entry => coin_db_key entry.1 == key).bind fun entry => Coin.read_back curve entry.2

/-- The loop of `iter_all_coins` over the keys that the iterator goes through. -/
def CoinsViewDB.collect_coins (self : CoinsViewDB) : List (List UInt8) → List (OutPoint × Coin)
  | [] => []
  | [] :: _ => []
  | (first :: bytes) :: rest =>
    if first ≠ DB_COIN then []
    else
      match OutPoint.decode.run bytes with
      | .error _ => self.collect_coins rest
      | .ok (outpoint, _) =>
        match self.read_coin curve (first :: bytes) with
        | none => self.collect_coins rest
        | some coin => (outpoint, coin) :: self.collect_coins rest

/-- All coins of the database, in the order of their keys. -/
def CoinsViewDB.iter_all_coins (self : CoinsViewDB) : List (OutPoint × Coin) :=
  self.collect_coins curve (prefixScan.seek [DB_COIN] self.keys)

variable {curve}

theorem coin_db_key_injective {outpoint other : OutPoint} (hsame : coin_db_key outpoint = coin_db_key other) :
    outpoint = other := by
  have hencode : outpoint.encode = other.encode := (List.cons.inj hsame).2
  have hread : OutPoint.decode.run outpoint.encode = .ok (outpoint, []) :=
    OutPoint.exact_decode.run_eq_ok.mpr ⟨trivial, (List.append_nil _).symm⟩
  have hother : OutPoint.decode.run outpoint.encode = .ok (other, []) :=
    OutPoint.exact_decode.run_eq_ok.mpr ⟨trivial, by rw [hencode, List.append_nil]⟩
  exact congrArg Prod.fst (Except.ok.inj (hread.symm.trans hother))

theorem CoinsViewDB.read_coin_key (self : CoinsViewDB) (outpoint : OutPoint) :
    self.read_coin curve (coin_db_key outpoint) = (self.coins.lookup outpoint).bind (Coin.read_back curve) := by
  unfold CoinsViewDB.read_coin AList.lookup
  induction self.coins.entries with
  | nil => rfl
  | cons entry rest ih =>
    obtain ⟨key, coin⟩ := entry
    by_cases hsame : key = outpoint
    · subst hsame
      rw [List.find?_cons_of_pos (by simp), List.dlookup_cons_eq]
      rfl
    · have hkey : (coin_db_key key == coin_db_key outpoint) = false :=
        beq_eq_false_iff_ne.mpr fun heq => hsame (coin_db_key_injective heq)
      rw [List.find?_cons, hkey, List.dlookup_cons_ne _ _ (Ne.symm hsame)]
      exact ih

def CoinsViewDB.collected (curve : Secp256k1) (self : CoinsViewDB) (key : List UInt8) : Option (OutPoint × Coin) :=
  match OutPoint.decode.run key.tail with
  | .error _ => none
  | .ok (outpoint, _) => (self.read_coin curve key).map fun coin => (outpoint, coin)

theorem CoinsViewDB.collect_coins_eq (self : CoinsViewDB) (keys : List (List UInt8)) :
    self.collect_coins curve keys = (keys.takeWhile (prefixScan.Begins DB_COIN)).filterMap (self.collected curve) := by
  induction keys with
  | nil => rfl
  | cons key rest ih =>
    cases key with
    | nil => rfl
    | cons first bytes =>
      unfold CoinsViewDB.collect_coins
      by_cases hfirst : first = DB_COIN
      · rw [if_neg (not_not.mpr hfirst),
          List.takeWhile_cons_of_pos (prefixScan.begins_iff.mpr ⟨bytes, by rw [hfirst]⟩), List.filterMap_cons, ← ih]
        unfold CoinsViewDB.collected
        dsimp only [List.tail_cons]
        cases OutPoint.decode.run bytes with
        | error _ => rfl
        | ok result => cases self.read_coin curve (first :: bytes) <;> rfl
      · have hother : ¬ prefixScan.Begins DB_COIN (first :: bytes) = true := by
          intro hbegins
          obtain ⟨_, heq⟩ := prefixScan.begins_iff.mp hbegins
          exact hfirst (List.cons.inj heq).1
        rw [if_pos hfirst, List.takeWhile_cons_of_neg hother]
        rfl

theorem CoinsViewDB.collected_key (self : CoinsViewDB) (outpoint : OutPoint) :
    self.collected curve (coin_db_key outpoint) =
      ((self.coins.lookup outpoint).bind (Coin.read_back curve)).map fun coin => (outpoint, coin) := by
  have hread : OutPoint.decode.run (coin_db_key outpoint).tail = .ok (outpoint, []) :=
    OutPoint.exact_decode.run_eq_ok.mpr ⟨trivial, by rw [List.append_nil]; rfl⟩
  unfold CoinsViewDB.collected
  rw [hread, self.read_coin_key]

theorem CoinsViewDB.filter_keys (self : CoinsViewDB) :
    self.keys.filter (prefixScan.Begins DB_COIN) = self.coins.keys.map coin_db_key := by
  have hcoins : (self.coins.keys.map coin_db_key).filter (prefixScan.Begins DB_COIN) = self.coins.keys.map coin_db_key := by
    refine List.filter_eq_self.mpr fun key hkey => ?_
    obtain ⟨outpoint, _, rfl⟩ := List.mem_map.mp hkey
    exact prefixScan.begins_iff.mpr ⟨_, rfl⟩
  unfold CoinsViewDB.keys
  rw [List.filter_append, hcoins]
  cases self.best_block.is_null <;> rfl

theorem CoinsViewDB.mem_iter_all_coins {self : CoinsViewDB} {outpoint : OutPoint} {coin : Coin} :
    (outpoint, coin) ∈ self.iter_all_coins curve ↔
      (self.coins.lookup outpoint).bind (Coin.read_back curve) = some coin := by
  unfold CoinsViewDB.iter_all_coins
  rw [self.collect_coins_eq, ((prefixScan.takeWhile_seek DB_COIN self.keys).filterMap _).mem_iff, self.filter_keys,
    List.mem_filterMap]
  constructor
  · rintro ⟨key, hkey, hcollected⟩
    obtain ⟨other, _, rfl⟩ := List.mem_map.mp hkey
    rw [self.collected_key] at hcollected
    obtain ⟨stored, hstored, heq⟩ := Option.map_eq_some_iff.mp hcollected
    cases heq
    exact hstored
  · intro hread
    obtain ⟨written, hlookup, _⟩ := Option.bind_eq_some_iff.mp hread
    have hkey : outpoint ∈ self.coins.keys := AList.mem_keys.mpr (AList.lookup_isSome.mp (by rw [hlookup]; rfl))
    refine ⟨coin_db_key outpoint, List.mem_map_of_mem hkey, ?_⟩
    rw [self.collected_key, hread]
    rfl

theorem CoinsViewDB.iter_all_coins_nodup (self : CoinsViewDB) : ((self.iter_all_coins curve).map Prod.fst).Nodup := by
  unfold CoinsViewDB.iter_all_coins
  rw [self.collect_coins_eq, (((prefixScan.takeWhile_seek DB_COIN self.keys).filterMap _).map _).nodup_iff,
    self.filter_keys, List.filterMap_map]
  have hsub : (((self.coins.keys.filterMap (self.collected curve ∘ coin_db_key))).map Prod.fst).Sublist self.coins.keys := by
    induction self.coins.keys with
    | nil => exact List.Sublist.refl []
    | cons outpoint rest ih =>
      rw [List.filterMap_cons, Function.comp_apply, self.collected_key]
      cases (self.coins.lookup outpoint).bind (Coin.read_back curve) with
      | none => exact ih.cons _
      | some coin => exact ih.cons_cons _
  exact hsub.nodup self.coins.nodupKeys

/-- No spent coin is stored, and an entry that is not `DIRTY` is the coin that is stored. -/
structure CoinsViewCache.Anchored (view : CoinsViewCache) : Prop where
  unspent : ∀ {outpoint coin}, view.base.coins.lookup outpoint = some coin → coin.is_spent = false
  clean : ∀ {outpoint entry}, view.cache.lookup outpoint = some entry → entry.flags.is_dirty = false →
    view.base.coins.lookup outpoint = some entry.coin

namespace CoinsViewCache.Anchored

variable {view : CoinsViewCache}

theorem get_coin (hanchored : view.Anchored) (outpoint : OutPoint) :
    view.base.get_coin outpoint = view.base.coins.lookup outpoint := by
  unfold CoinsViewDB.get_coin
  cases hlookup : view.base.coins.lookup outpoint with
  | none => rfl
  | some coin => simp [hanchored.unspent hlookup]

theorem visible_eq (hanchored : view.Anchored) {outpoint : OutPoint}
    (hclean : ∀ entry, view.cache.lookup outpoint = some entry → entry.flags.is_dirty = false) :
    view.visible outpoint = view.base.coins.lookup outpoint := by
  rw [view.visible_eq]
  cases hcache : view.cache.lookup outpoint with
  | none => exact hanchored.get_coin outpoint
  | some entry =>
    have hstored := hanchored.clean hcache (hclean entry hcache)
    dsimp only
    rw [hstored, CoinsCacheEntry.shown, hanchored.unspent hstored]
    rfl

theorem congr (hanchored : view.Anchored) {after : CoinsViewCache} (hbase : after.base = view.base)
    (hentry : ∀ {outpoint entry}, after.cache.lookup outpoint = some entry →
      view.cache.lookup outpoint = some entry ∨ entry.flags.is_dirty = true ∨
        view.base.coins.lookup outpoint = some entry.coin) : after.Anchored where
  unspent hlookup := hanchored.unspent (hbase ▸ hlookup)
  clean {outpoint entry} hlookup hclean := by
    rw [hbase]
    obtain hsame | hdirty | hstored := hentry hlookup
    · exact hanchored.clean hsame hclean
    · rw [hclean] at hdirty
      cases hdirty
    · exact hstored

end CoinsViewCache.Anchored

theorem lookup_insert_cases {V : Type} {map : HashMap OutPoint V} {key query : OutPoint} {value found : V}
    (hlookup : (map.insert key value).lookup query = some found) :
    map.lookup query = some found ∨ (query = key ∧ found = value) := by
  rw [lookup_insert_eq] at hlookup
  split at hlookup
  · next heq => exact .inr ⟨heq, (Option.some.inj hlookup).symm⟩
  · exact .inl hlookup

theorem CoinsViewCache.Anchored.kept : KeptByCalls CoinsViewCache.Anchored where
  cache_clean {view outpoint coin} hanchored hbase := by
    refine hanchored.congr rfl fun hlookup => ?_
    obtain hsame | ⟨rfl, rfl⟩ := lookup_insert_cases hlookup
    · exact .inl hsame
    · rw [hanchored.get_coin] at hbase
      exact .inr (.inr hbase)
  add_coin {view after outpoint coin possible_overwrite} hanchored hadd := by
    unfold CoinsViewCache.add_coin at hadd
    split at hadd
    · cases hadd
    · split at hadd
      · cases hadd
        exact hanchored
      · split at hadd
        · next existing _ =>
          split at hadd
          · cases hadd
          · cases hadd
            refine hanchored.congr rfl fun hlookup => ?_
            obtain hsame | ⟨_, rfl⟩ := lookup_insert_cases hlookup
            · exact .inl hsame
            · refine .inr (.inl ?_)
              dsimp only
              split <;> rfl
        · cases hadd
          refine hanchored.congr rfl fun hlookup => ?_
          obtain hsame | ⟨_, rfl⟩ := lookup_insert_cases hlookup
          · exact .inl hsame
          · exact .inr (.inl CoinsCacheFlags.is_dirty_DIRTY_FRESH)
  spend_cached {view} outpoint hanchored := by
    unfold CoinsViewCache.spend_cached
    split
    · exact hanchored
    · next entry _ =>
      split
      · exact hanchored
      · refine hanchored.congr rfl fun hlookup => ?_
        dsimp only at hlookup
        split at hlookup
        · rw [lookup_erase_eq] at hlookup
          split at hlookup
          · cases hlookup
          · exact .inl hlookup
        · obtain hsame | ⟨_, rfl⟩ := lookup_insert_cases hlookup
          · exact .inl hsame
          · exact .inr (.inl rfl)

theorem CoinsViewCache.Anchored.flush_to {view : CoinsViewCache} (hanchored : view.Anchored)
    {order : List (Σ _ : OutPoint, CoinsCacheEntry)} (horder : order.Perm view.cache.entries) (written : Bool) :
    (view.flush_to order written).2.Anchored := by
  cases written with
  | false => exact hanchored
  | true =>
    have hnodup := flush_writes_keys_nodup ((List.perm_nodupKeys horder).mpr view.cache.nodupKeys)
    have hbase : ∀ outpoint, (view.flush_to order true).2.base.coins.lookup outpoint =
        (apply_writes view.base.coins (flush_writes order)).lookup outpoint := fun _ => rfl
    constructor
    · intro outpoint coin hlookup
      rw [hbase] at hlookup
      by_cases hwritten : outpoint ∈ (flush_writes order).map Prod.fst
      · obtain ⟨⟨key, value⟩, hmem, rfl⟩ := List.mem_map.mp hwritten
        rw [apply_writes_of_mem hnodup hmem] at hlookup
        obtain ⟨entry, _, _, _, hvalue⟩ := mem_flush_writes.mp hmem
        rw [hvalue, CoinsCacheEntry.shown] at hlookup
        split at hlookup
        · cases hlookup
        · next hspent =>
          cases hlookup
          simpa using hspent
      · rw [apply_writes_of_not_mem hwritten] at hlookup
        exact hanchored.unspent hlookup
    · intro outpoint entry hlookup _
      have hkept : (retain_clean 0 order).1.dlookup outpoint = some entry := by
        rw [← AList.lookup_to_alist]
        exact hlookup
      obtain ⟨cached, hcached, hspent, rfl⟩ := mem_retain_clean (List.of_mem_dlookup hkept)
      rw [hbase]
      have hentry := (mem_order_iff horder).mp hcached
      have hshown : cached.shown = some cached.coin := by rw [CoinsCacheEntry.shown, hspent]; rfl
      cases hdirty : cached.flags.is_dirty with
      | true =>
        have hskip : ¬ (cached.flags.is_fresh = true ∧ cached.coin.is_spent = true) := by
          rw [hspent]
          exact fun hskip => Bool.false_ne_true hskip.2
        have hmem : (outpoint, cached.shown) ∈ flush_writes order :=
          mem_flush_writes.mpr ⟨cached, hcached, hdirty, hskip, rfl⟩
        rw [apply_writes_of_mem hnodup hmem, hshown]
        rfl
      | false =>
        have hnot : outpoint ∉ (flush_writes order).map Prod.fst := by
          intro hwritten
          obtain ⟨⟨key, value⟩, hmem, rfl⟩ := List.mem_map.mp hwritten
          obtain ⟨other, hother, hother_dirty, _⟩ := mem_flush_writes.mp hmem
          cases hentry.symm.trans ((mem_order_iff horder).mp hother)
          rw [hdirty] at hother_dirty
          cases hother_dirty
        rw [apply_writes_of_not_mem hnot]
        have hstored : view.base.coins.lookup outpoint = some cached.coin := hanchored.clean hentry hdirty
        exact hstored

end qubitcoin.coins
