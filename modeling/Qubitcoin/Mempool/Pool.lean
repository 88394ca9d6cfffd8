import Qubitcoin.Coins.Cache
import Qubitcoin.Lib.Reach

/-! `qubitcoin-node/mempool.rs`: the entries of the pool with their package statistics,
    and the operations that add and remove them. -/

open qubitcoin primitives script transaction

namespace qubitcoin.mempool

/-- A fee rate, in satoshis per 1000 virtual bytes. -/
structure FeeRate where
  sats_per_kvb : Int
  deriving DecidableEq, Repr

def FeeRate.ZERO : FeeRate := ⟨0⟩

def DEFAULT_MIN_RELAY_TX_FEE : FeeRate := ⟨0⟩
def DUST_RELAY_TX_FEE : FeeRate := ⟨3000⟩
def DEFAULT_INCREMENTAL_RELAY_FEE : FeeRate := ⟨1000⟩
def DEFAULT_MAX_MEMPOOL_SIZE : Nat := 300 * 1000000

/-- Why a transaction is refused; each reason holds what its text shows. -/
inductive RejectReason where
  | txn_already_in_mempool (txid : Txid)
  | dust (value threshold : Int)
  | min_relay_fee_not_met (fee_rate min_relay_fee : FeeRate)
  | txn_mempool_conflict (txid : Txid)
  | bad_txns_spends_conflicting_tx (txid : Txid)
  | too_many_potential_replacements (limit : Nat)
  | insufficient_fee_evicted (fee evicted_total : Int)
  | insufficient_fee_relay (fee required : Int)
  | too_many_unconfirmed_ancestors (limit : Int)
  | exceeds_ancestor_size_limit (limit : Int)
  | exceeds_descendant_limit (limit : Int)
  | exceeds_descendant_size_limit (limit : Int)
  | mempool_full
  deriving DecidableEq, Repr

/-- A result, a refusal, or an abort on an overflow. -/
abbrev Result := Except (Failure RejectReason)

/-- The fee for a size, rounded up. -/
def FeeRate.get_fee (self : FeeRate) (virtual_size : Nat) : Result Amount := do
  let numer ← checked .i64 (self.sats_per_kvb * virtual_size)
  if 0 < numer then do
    let rounded ← checked .i64 (numer + 999)
    pure (rounded / 1000)
  else pure (numer.tdiv 1000)

def fee_rate_of (fee : Amount) (vsize : UInt32) : Result FeeRate :=
  if 0 < vsize then do
    let numer ← checked .i64 (fee * 1000)
    pure ⟨numer.tdiv vsize.toNat⟩
  else pure .ZERO

/-- A transaction of the pool, with the number, size and fees of its ancestors and of its
    descendants, itself included. -/
structure MempoolEntry where
  tx : Transaction
  fee : Amount
  vsize : UInt32
  time : UInt64
  entry_height : Int
  spends_coinbase : Bool
  sig_op_cost : UInt32
  fee_rate : FeeRate
  ancestor_count : Int
  ancestor_size : Int
  ancestor_fee : Amount
  descendant_count : Int
  descendant_size : Int
  descendant_fee : Amount
  deriving DecidableEq, Repr

def MempoolEntry.new (tx : Transaction) (fee : Amount) (vsize : UInt32) (time : UInt64) (entry_height : Int)
    (spends_coinbase : Bool) (sig_op_cost : UInt32) : Result MempoolEntry := do
  let fee_rate ← fee_rate_of fee vsize
  pure { tx, fee, vsize, time, entry_height, spends_coinbase, sig_op_cost, fee_rate
         ancestor_count := 1, ancestor_size := vsize.toNat, ancestor_fee := fee
         descendant_count := 1, descendant_size := vsize.toNat, descendant_fee := fee }

def MempoolEntry.txid (self : MempoolEntry) : Txid := self.tx.txid

structure TxMemPool where
  entries : HashMap Txid MempoolEntry
  spenders : HashMap OutPoint Txid
  total_fee : Int
  sequence : UInt64
  min_relay_fee : FeeRate
  incremental_relay_fee : FeeRate
  max_mempool_size : Nat
  full_rbf : Bool

def TxMemPool.new_with_limits (min_relay_fee : FeeRate) (max_size : Nat) : TxMemPool :=
  { entries := ∅, spenders := ∅, total_fee := 0, sequence := 0, min_relay_fee
    incremental_relay_fee := DEFAULT_INCREMENTAL_RELAY_FEE, max_mempool_size := max_size, full_rbf := true }

def TxMemPool.new : TxMemPool := .new_with_limits DEFAULT_MIN_RELAY_TX_FEE DEFAULT_MAX_MEMPOOL_SIZE

/-- Sums of the atomic counter wrap. -/
def wrap_i64 (x : Int) : Int := x.bmod (2 ^ 64)

def TxMemPool.exists (self : TxMemPool) (txid : Txid) : Bool := (self.entries.lookup txid).isSome

def TxMemPool.get (self : TxMemPool) (txid : Txid) : Option Transaction :=
  (self.entries.lookup txid).map MempoolEntry.tx

/-- The ids of the transactions in the pool that a transaction spends from, one for each
    input. -/
def parent_txids (entries : HashMap Txid MempoolEntry) (tx : Transaction) : List Txid :=
  (tx.vin.map fun input => input.prevout.hash).filter fun parent => (entries.lookup parent).isSome

def entry_parents (entries : HashMap Txid MempoolEntry) (txid : Txid) : List Txid :=
  match entries.lookup txid with
  | some entry => parent_txids entries entry.tx
  | none => []

/-- No more inputs can be followed than the pool has. -/
def input_count (entries : HashMap Txid MempoolEntry) : Nat :=
  (entries.keys.map fun txid => (entry_parents entries txid).length).sum

/-- The ids of all ancestors in the pool; the stack starts with the parents, the last on
    top. -/
def collect_ancestors_from_entries (entries : HashMap Txid MempoolEntry) (entry : MempoolEntry) : List Txid :=
  let queue := (parent_txids entries entry.tx).reverse
  reach.search (entry_parents entries) (queue.length + input_count entries) queue []

/-- The transactions that spend the outputs of an entry, in the order of the outputs. -/
def entry_children (entries : HashMap Txid MempoolEntry) (spenders : HashMap OutPoint Txid) (txid : Txid) : List Txid :=
  match entries.lookup txid with
  | some entry => (List.range entry.tx.vout.length).filterMap fun idx => spenders.lookup ⟨txid, UInt32.ofNat idx⟩
  | none => []

/-- The ids of all descendants in the pool. Every round but the first pops a spender. -/
def collect_descendants_locked (entries : HashMap Txid MempoolEntry) (spenders : HashMap OutPoint Txid) (txid : Txid) :
    List Txid :=
  (reach.discover (entry_children entries spenders) (spenders.keys.length + 1) [txid] [txid]).drop 1

/-- Edit an entry in place, if it is there. -/
def update_entry (edit : MempoolEntry → Result MempoolEntry) (entries : HashMap Txid MempoolEntry) (txid : Txid) :
    Result (HashMap Txid MempoolEntry) :=
  match entries.lookup txid with
  | some entry => do
    let entry ← edit entry
    pure (entries.insert txid entry)
  | none => pure entries

def MempoolEntry.add_parent (self parent : MempoolEntry) : Result MempoolEntry := do
  let ancestor_count ← checked .u64 (self.ancestor_count + parent.ancestor_count)
  let ancestor_size ← checked .u64 (self.ancestor_size + parent.ancestor_size)
  let ancestor_fee ← checked .Amount (self.ancestor_fee + parent.ancestor_fee)
  pure { self with ancestor_count, ancestor_size, ancestor_fee }

def MempoolEntry.add_descendant (our_vsize : Int) (our_fee : Amount) (self : MempoolEntry) : Result MempoolEntry := do
  let descendant_count ← checked .u64 (self.descendant_count + 1)
  let descendant_size ← checked .u64 (self.descendant_size + our_vsize)
  let descendant_fee ← checked .Amount (self.descendant_fee + our_fee)
  pure { self with descendant_count, descendant_size, descendant_fee }

/-- Take a descendant off; the unsigned numbers stop at zero. -/
def MempoolEntry.remove_descendant (vsize : Int) (fee : Amount) (self : MempoolEntry) : Result MempoolEntry := do
  let descendant_fee ← checked .Amount (self.descendant_fee - fee)
  pure { self with
    descendant_count := max 0 (self.descendant_count - 1)
    descendant_size := max 0 (self.descendant_size - vsize)
    descendant_fee }

/-- The loop that adds up the ancestor statistics of the parents. -/
def add_parents (entries : HashMap Txid MempoolEntry) : List Txid → MempoolEntry → Result MempoolEntry
  | [], entry => pure entry
  | parent :: rest, entry =>
    match entries.lookup parent with
    | some parent => do
      let entry ← entry.add_parent parent
      add_parents entries rest entry
    | none => add_parents entries rest entry

/-- Add an entry. The result is `false` if it was there already. -/
def TxMemPool.add_unchecked (self : TxMemPool) (entry : MempoolEntry) : Result (TxMemPool × Bool) :=
  let txid := entry.txid
  if self.exists txid then .ok (self, false)
  else do
    let spenders := entry.tx.vin.foldl (fun spenders input => spenders.insert input.prevout txid) self.spenders
    let entry ← add_parents self.entries (parent_txids self.entries entry.tx) entry
    let entries ← (collect_ancestors_from_entries self.entries entry).foldlM
      (update_entry (MempoolEntry.add_descendant entry.vsize.toNat entry.fee)) self.entries
    pure ({ self with
      entries := entries.insert txid entry
      spenders
      total_fee := wrap_i64 (self.total_fee + entry.fee)
      sequence := self.sequence + 1 }, true)

/-- Remove a single entry, and take it off the statistics of the ancestors that are still
    in the pool. -/
def TxMemPool.remove_entry (self : TxMemPool) (txid : Txid) : Result (TxMemPool × Option MempoolEntry) :=
  match self.entries.lookup txid with
  | none => .ok (self, none)
  | some entry => do
    let remaining := self.entries.erase txid
    let spenders := entry.tx.vin.foldl (fun spenders input => spenders.erase input.prevout) self.spenders
    let entries ← (collect_ancestors_from_entries remaining entry).foldlM
      (update_entry (MempoolEntry.remove_descendant entry.vsize.toNat entry.fee)) remaining
    pure ({ self with entries, spenders, total_fee := wrap_i64 (self.total_fee - entry.fee) }, some entry)

def TxMemPool.remove_entries : TxMemPool → List Txid → Result (TxMemPool × List Transaction)
  | self, [] => .ok (self, [])
  | self, txid :: rest => do
    let (pool, removed) ← self.remove_entry txid
    let (pool, removed_txs) ← pool.remove_entries rest
    pure (pool, (removed.map MempoolEntry.tx).toList ++ removed_txs)

/-- Remove an entry and its descendants, the entry first. -/
def TxMemPool.remove_recursive (self : TxMemPool) (txid : Txid) : Result (TxMemPool × List Transaction) :=
  if self.exists txid then
    self.remove_entries (txid :: collect_descendants_locked self.entries self.spenders txid)
  else .ok (self, [])

def TxMemPool.remove_for_block (self : TxMemPool) (txids : List Txid) : Result TxMemPool := do
  let (pool, _) ← self.remove_entries txids
  pure pool

def TxMemPool.remove_all_recursive : TxMemPool → List Txid → Result TxMemPool
  | self, [] => .ok self
  | self, txid :: rest => do
    let (pool, _) ← self.remove_recursive txid
    pool.remove_all_recursive rest

/-- The entries, in the order the hash map gives them out. -/
def TxMemPool.values (self : TxMemPool) (order : List Txid) : List MempoolEntry := order.filterMap self.entries.lookup

def TxMemPool.current_bytes (self : TxMemPool) : Nat :=
  (self.entries.entries.map fun entry => entry.2.vsize.toNat).sum

def TxMemPool.has_room (self : TxMemPool) (vsize : UInt32) : Bool :=
  decide (self.current_bytes + vsize.toNat ≤ self.max_mempool_size)

def MempoolEntry.descendant_fee_rate (self : MempoolEntry) : Result Int :=
  if 0 < self.descendant_size then do
    let numer ← checked .i64 (self.descendant_fee * 1000)
    pure (numer.tdiv (self.descendant_size.bmod (2 ^ 64)))
  else pure (2 ^ 63 - 1)

/-- The first of the entries with the lowest rate. -/
def worst_entry : List MempoolEntry → Result (Option (MempoolEntry × Int))
  | [] => pure none
  | entry :: rest => do
    let rate ← entry.descendant_fee_rate
    match ← worst_entry rest with
    | some (worst, lowest) => if lowest < rate then pure (some (worst, lowest)) else pure (some (entry, rate))
    | none => pure (some (entry, rate))

/-- Evict entries until the pool fits. `orders` are the iteration orders of the hash map in
    the rounds of the loop, one round for each. -/
def TxMemPool.trim_to_size : TxMemPool → List (List Txid) → Result TxMemPool
  | self, [] => .ok self
  | self, order :: orders =>
    if self.current_bytes ≤ self.max_mempool_size then .ok self
    else do
      match ← worst_entry (self.values order) with
      | none => pure self
      | some (worst, _) =>
        let (pool, _) ← self.remove_recursive worst.txid
        pool.trim_to_size orders

end qubitcoin.mempool
