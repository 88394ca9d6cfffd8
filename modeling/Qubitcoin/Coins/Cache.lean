import Qubitcoin.Consensus.Transaction
import Mathlib.Data.List.AList

/-! `qubitcoin-common/coins.rs`: coins, cache entries with their flags, and the
    coins cache over its database. -/

open qubitcoin primitives transaction

namespace qubitcoin

/-- A hash map. Its iteration order is unspecified, so code that iterates takes
    an order of the entries as an argument. -/
abbrev HashMap (K V : Type) := AList fun _ : K => V

end qubitcoin

namespace qubitcoin.coins

/-- An unspent output with the height and kind of the transaction that made it. -/
structure Coin where
  tx_out : TxOut
  height : UInt32
  coinbase : Bool
  deriving DecidableEq, Repr

def Coin.new (tx_out : TxOut) (height : UInt32) (coinbase : Bool) : Coin := ⟨tx_out, height, coinbase⟩

def Coin.empty : Coin := ⟨TxOut.null, 0, false⟩

def Coin.is_spent (self : Coin) : Bool := self.tx_out.is_null

def Coin.dynamic_memory_usage (self : Coin) : UInt64 := UInt64.ofNat (140 + self.tx_out.script_pubkey.len)

/-- The state of a cache entry relative to the parent view. -/
structure CoinsCacheFlags where
  bits : UInt8
  deriving DecidableEq, Repr

def CoinsCacheFlags.NONE : CoinsCacheFlags := ⟨0⟩
def CoinsCacheFlags.DIRTY : CoinsCacheFlags := ⟨1⟩
def CoinsCacheFlags.FRESH : CoinsCacheFlags := ⟨2⟩
def CoinsCacheFlags.DIRTY_FRESH : CoinsCacheFlags := ⟨1 ||| 2⟩

def CoinsCacheFlags.is_dirty (self : CoinsCacheFlags) : Bool := self.bits &&& DIRTY.bits != 0

def CoinsCacheFlags.is_fresh (self : CoinsCacheFlags) : Bool := self.bits &&& FRESH.bits != 0

def CoinsCacheFlags.bitor (self rhs : CoinsCacheFlags) : CoinsCacheFlags := ⟨self.bits ||| rhs.bits⟩

structure CoinsCacheEntry where
  coin : Coin
  flags : CoinsCacheFlags
  deriving DecidableEq, Repr

def CoinsCacheEntry.clean (coin : Coin) : CoinsCacheEntry := ⟨coin, .NONE⟩

/-- The coin database: the stored coins and the best-block marker. -/
structure CoinsViewDB where
  coins : HashMap OutPoint Coin
  best_block : BlockHash

/-- A stored coin that is marked spent is not returned. -/
def CoinsViewDB.get_coin (self : CoinsViewDB) (outpoint : OutPoint) : Option Coin :=
  match self.coins.lookup outpoint with
  | some coin => if coin.is_spent then none else some coin
  | none => none

def CoinsViewDB.get_coins (self : CoinsViewDB) (outpoints : List OutPoint) : List (Option Coin) :=
  outpoints.map self.get_coin

/-- One write of a batch; `none` erases. -/
def apply_write (coins : HashMap OutPoint Coin) (outpoint : OutPoint) :
    Option Coin → HashMap OutPoint Coin
  | some coin => coins.insert outpoint coin
  | none => coins.erase outpoint

def apply_writes (coins : HashMap OutPoint Coin) : List (OutPoint × Option Coin) →
    HashMap OutPoint Coin
  | [] => coins
  | (outpoint, write) :: rest => apply_writes (apply_write coins outpoint write) rest

/-- One atomic batch: the coin writes together with the best-block marker. -/
def CoinsViewDB.batch_write (self : CoinsViewDB) (entries : List (OutPoint × Option Coin))
    (best_block : BlockHash) : CoinsViewDB :=
  { coins := apply_writes self.coins entries, best_block }

/-- The in-memory cache over the database it is flushed to. -/
structure CoinsViewCache where
  base : CoinsViewDB
  cache : HashMap OutPoint CoinsCacheEntry
  best_block : BlockHash
  usage : UInt64

def CoinsViewCache.new (base : CoinsViewDB) : CoinsViewCache :=
  { base, cache := ∅, best_block := base.best_block, usage := 0 }

def CoinsViewCache.set_best_block (self : CoinsViewCache) (hash : BlockHash) : CoinsViewCache :=
  { self with best_block := hash }

def CoinsViewCache.get_best_block (self : CoinsViewCache) : BlockHash :=
  if Uint256.is_null self.best_block then self.base.best_block else self.best_block

def CoinsViewCache.cache_clean (self : CoinsViewCache) (outpoint : OutPoint) (coin : Coin) : CoinsViewCache :=
  { self with
    cache := self.cache.insert outpoint (.clean coin)
    usage := self.usage + coin.dynamic_memory_usage }

/-- The insertion loop of `prefetch_coins` over the missing outpoints and what
    the base holds for them. -/
def CoinsViewCache.insert_fetched (self : CoinsViewCache) :
    List (OutPoint × Option Coin) → CoinsViewCache
  | [] => self
  | (outpoint, maybe_coin) :: rest =>
    match self.cache.lookup outpoint, maybe_coin with
    | none, some coin => if coin.is_spent then self.insert_fetched rest
        else (self.cache_clean outpoint coin).insert_fetched rest
    | _, _ => self.insert_fetched rest

def CoinsViewCache.prefetch_coins (self : CoinsViewCache) (outpoints : List OutPoint) : CoinsViewCache :=
  let miss_outpoints := outpoints.filter fun outpoint => (self.cache.lookup outpoint).isNone
  self.insert_fetched (miss_outpoints.zip (self.base.get_coins miss_outpoints))

/-- Look a coin up in the cache, then in the base, caching what is read. -/
def CoinsViewCache.fetch_coin (self : CoinsViewCache) (outpoint : OutPoint) :
    Option Coin × CoinsViewCache :=
  match self.cache.lookup outpoint with
  | some entry => if entry.coin.is_spent then (none, self) else (some entry.coin, self)
  | none =>
    match self.base.get_coin outpoint with
    | some coin => if coin.is_spent then (none, self) else (some coin, self.cache_clean outpoint coin)
    | none => (none, self)

def CoinsViewCache.have_coin (self : CoinsViewCache) (outpoint : OutPoint) : Bool × CoinsViewCache :=
  let (coin, self) := self.fetch_coin outpoint
  (coin.isSome, self)

/-- Add a coin. An entry that is already cached is overwritten; a new entry is
    marked `DIRTY` and `FRESH` without a look at the base. -/
def CoinsViewCache.add_coin (self : CoinsViewCache) (outpoint : OutPoint) (coin : Coin)
    (possible_overwrite : Bool) : Except Panic CoinsViewCache :=
  if coin.is_spent then .error (.assertion_failed "Cannot add a spent coin")
  else if coin.tx_out.script_pubkey.is_unspendable then .ok self
  else
    match self.cache.lookup outpoint with
    | some existing =>
      if !possible_overwrite && !existing.coin.is_spent then
        .error (.assertion_failed "Attempted to overwrite an unspent coin (when possible_overwrite is false)")
      else
        let fresh := !possible_overwrite && !existing.flags.is_dirty
        let flags := if fresh then CoinsCacheFlags.DIRTY.bitor .FRESH else .DIRTY
        .ok { self with
          cache := self.cache.insert outpoint ⟨coin, flags⟩
          usage := self.usage - existing.coin.dynamic_memory_usage + coin.dynamic_memory_usage }
    | none =>
      .ok { self with
        cache := self.cache.insert outpoint ⟨coin, .DIRTY_FRESH⟩
        usage := self.usage + coin.dynamic_memory_usage }

/-- The second half of `spend_coin`, on the entry that the first half made sure
    is cached. A `FRESH` entry is dropped, any other is kept as a spent and
    `DIRTY` one. -/
def CoinsViewCache.spend_cached (self : CoinsViewCache) (outpoint : OutPoint) :
    Option Coin × CoinsViewCache :=
  match self.cache.lookup outpoint with
  | none => (none, self)
  | some entry =>
    if entry.coin.is_spent then (none, self)
    else
      (some entry.coin, { self with
        cache := if entry.flags.is_fresh then self.cache.erase outpoint
          else self.cache.insert outpoint ⟨.empty, .DIRTY⟩
        usage := self.usage - entry.coin.dynamic_memory_usage })

def CoinsViewCache.spend_coin (self : CoinsViewCache) (outpoint : OutPoint) :
    Option Coin × CoinsViewCache :=
  (self.fetch_coin outpoint).2.spend_cached outpoint

/-- The writes of a flush: dirty entries, less those that are both `FRESH` and
    spent. -/
def flush_writes (entries : List (Σ _ : OutPoint, CoinsCacheEntry)) : List (OutPoint × Option Coin) :=
  entries.filterMap fun ⟨outpoint, entry⟩ =>
    if !entry.flags.is_dirty then none
    else if entry.flags.is_fresh && entry.coin.is_spent then none
    else if entry.coin.is_spent then some (outpoint, none)
    else some (outpoint, some entry.coin)

def MAX_RETAINED_BYTES : UInt64 := 1024 * 1024 * 1024

/-- The entries that stay cached after a flush, marked clean, and their size:
    unspent ones, as long as the total stays within the limit. -/
def retain_clean : UInt64 → List (Σ _ : OutPoint, CoinsCacheEntry) →
    List (Σ _ : OutPoint, CoinsCacheEntry) × UInt64
  | retained_usage, [] => ([], retained_usage)
  | retained_usage, ⟨outpoint, entry⟩ :: rest =>
    if entry.coin.is_spent then retain_clean retained_usage rest
    else
      let coin_size := entry.coin.dynamic_memory_usage
      if MAX_RETAINED_BYTES < retained_usage + coin_size then retain_clean retained_usage rest
      else
        let (kept, total) := retain_clean (retained_usage + coin_size) rest
        (⟨outpoint, .clean entry.coin⟩ :: kept, total)

/-- Flush to the base. `order` is the order in which the cache is iterated and
    `written` whether the database accepts the batch; a refused batch changes
    neither the base nor the cache. -/
def CoinsViewCache.flush_to (self : CoinsViewCache) (order : List (Σ _ : OutPoint, CoinsCacheEntry))
    (written : Bool) : Bool × CoinsViewCache :=
  if written then
    let (kept, usage) := retain_clean 0 order
    (true, { self with
      base := self.base.batch_write (flush_writes order) self.best_block
      cache := kept.toAList
      usage })
  else (false, self)

/-- Drop a cached entry that has no pending modification. -/
def CoinsViewCache.uncache (self : CoinsViewCache) (outpoint : OutPoint) : CoinsViewCache :=
  match self.cache.lookup outpoint with
  | some entry =>
    if entry.flags.is_dirty then self
    else { self with
      cache := self.cache.erase outpoint
      usage := self.usage - entry.coin.dynamic_memory_usage }
  | none => self

/-- The outputs of a transaction with their outpoints. -/
def outpoints (tx : Transaction) : List (OutPoint × TxOut) :=
  tx.vout.zipIdx.map fun (output, i) => (⟨tx.txid, UInt32.ofNat i⟩, output)

/-- The output loop of `add_coins`. -/
def add_outputs (height : UInt32) (is_coinbase check_for_overwrite : Bool) :
    List (OutPoint × TxOut) → CoinsViewCache → Except Panic CoinsViewCache
  | [], cache => .ok cache
  | (outpoint, output) :: rest, cache => do
    let (overwrite, cache) := if check_for_overwrite then cache.have_coin outpoint else (is_coinbase, cache)
    let cache ← cache.add_coin outpoint (.new output height is_coinbase) overwrite
    add_outputs height is_coinbase check_for_overwrite rest cache

/-- Add all outputs of a transaction. Without the overwrite check, only a
    coinbase is allowed to overwrite. -/
def add_coins (cache : CoinsViewCache) (tx : Transaction) (height : UInt32)
    (check_for_overwrite : Bool) : Except Panic CoinsViewCache :=
  add_outputs height tx.is_coinbase check_for_overwrite (outpoints tx) cache

end qubitcoin.coins
