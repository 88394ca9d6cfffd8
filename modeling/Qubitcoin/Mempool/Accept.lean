import Qubitcoin.Mempool.Pool

/-! `qubitcoin-node/mempool.rs`: the policy checks of a new transaction, replacement, and
    the expiry of old entries. -/

open qubitcoin primitives script transaction

namespace qubitcoin.mempool

def DEFAULT_ANCESTOR_LIMIT : Int := 25
def DEFAULT_ANCESTOR_SIZE_LIMIT : Int := 101000
def DEFAULT_DESCENDANT_LIMIT : Int := 25
def DEFAULT_DESCENDANT_SIZE_LIMIT : Int := 101000
def MAX_BIP125_REPLACEMENT_CANDIDATES : Nat := 100
def WITNESS_SCALE_FACTOR : Nat := 4

/-- The value below which an output costs more to spend than it holds. -/
def get_dust_threshold (txout : TxOut) (dust_relay_fee : FeeRate) : Result Int :=
  if txout.script_pubkey.is_unspendable then pure 0
  else
    let spend_size := txout.encode.length +
      (if txout.script_pubkey.is_witness_program.isSome then 32 + 4 + 1 + 107 / WITNESS_SCALE_FACTOR + 4
        else 32 + 4 + 1 + 107 + 4)
    dust_relay_fee.get_fee spend_size

def check_dust : List TxOut → Result Unit
  | [] => pure ()
  | txout :: rest => do
    let threshold ← get_dust_threshold txout DUST_RELAY_TX_FEE
    require (threshold ≤ txout.value) (.invalid (.dust txout.value threshold))
    check_dust rest

def check_ancestor_limits (entry : MempoolEntry) : Result Unit := do
  require (entry.ancestor_count ≤ DEFAULT_ANCESTOR_LIMIT)
    (.invalid (.too_many_unconfirmed_ancestors DEFAULT_ANCESTOR_LIMIT))
  require (entry.ancestor_size ≤ DEFAULT_ANCESTOR_SIZE_LIMIT)
    (.invalid (.exceeds_ancestor_size_limit DEFAULT_ANCESTOR_SIZE_LIMIT))

/-- The check of one parent: it has room for one more descendant. -/
def check_parent_limits (vsize : UInt32) (parent : MempoolEntry) : Result Unit := do
  let descendant_count ← checked .u64 (parent.descendant_count + 1)
  require (descendant_count ≤ DEFAULT_DESCENDANT_LIMIT)
    (.invalid (.exceeds_descendant_limit DEFAULT_DESCENDANT_LIMIT))
  let descendant_size ← checked .u64 (parent.descendant_size + vsize.toNat)
  require (descendant_size ≤ DEFAULT_DESCENDANT_SIZE_LIMIT)
    (.invalid (.exceeds_descendant_size_limit DEFAULT_DESCENDANT_SIZE_LIMIT))

def check_input_limits (entries : HashMap Txid MempoolEntry) (vsize : UInt32) (input : TxIn) : Result Unit :=
  match entries.lookup input.prevout.hash with
  | some parent => check_parent_limits vsize parent
  | none => pure ()

def check_inputs_limits (entries : HashMap Txid MempoolEntry) (vsize : UInt32) : List TxIn → Result Unit
  | [] => pure ()
  | input :: rest => do
    check_input_limits entries vsize input
    check_inputs_limits entries vsize rest

/-- No parent of the entry is over its descendant limits with it. -/
def TxMemPool.check_descendant_limits (self : TxMemPool) (entry : MempoolEntry) : Result Unit :=
  check_inputs_limits self.entries entry.vsize entry.tx.vin

/-- The entries that spend an output the transaction spends, each once. -/
def TxMemPool.direct_conflicts (self : TxMemPool) (tx : Transaction) : List Txid :=
  tx.vin.foldl (fun conflicts input =>
    match self.spenders.lookup input.prevout with
    | some conflict => if conflict ∈ conflicts then conflicts else conflicts ++ [conflict]
    | none => conflicts) []

def MempoolEntry.signals_replaceability (self : MempoolEntry) : Bool :=
  self.tx.vin.any fun input => decide (input.sequence < 0xfffffffe)

def TxMemPool.check_signal (self : TxMemPool) (conflict : Txid) : Result Unit :=
  match self.entries.lookup conflict with
  | some entry => require entry.signals_replaceability (.invalid (.txn_mempool_conflict conflict))
  | none => pure ()

/-- The conflicts allow to be replaced, unless the pool replaces in any case. -/
def TxMemPool.check_signals (self : TxMemPool) : List Txid → Result Unit
  | [] => pure ()
  | conflict :: rest =>
    if self.full_rbf then pure ()
    else do
      self.check_signal conflict
      self.check_signals rest

/-- The conflicts and their descendants. A conflict is listed once more if it descends from
    an earlier one. -/
def TxMemPool.all_evicted (self : TxMemPool) (direct_conflicts : List Txid) : List Txid :=
  direct_conflicts.foldl (fun evicted conflict =>
    (collect_descendants_locked self.entries self.spenders conflict).foldl
      (fun evicted descendant => if descendant ∈ evicted then evicted else evicted ++ [descendant])
      (evicted ++ [conflict])) []

/-- The transaction does not spend from what it evicts. -/
def check_spends_conflicting (evicted : List Txid) : List TxIn → Result Unit
  | [] => pure ()
  | input :: rest => do
    require (input.prevout.hash ∉ evicted) (.invalid (.bad_txns_spends_conflicting_tx input.prevout.hash))
    check_spends_conflicting evicted rest

def TxMemPool.evicted_total_fee (self : TxMemPool) : Int → List Txid → Result Int
  | sum, [] => pure sum
  | sum, txid :: rest =>
    match self.entries.lookup txid with
    | some entry => do
      let sum ← checked .i64 (sum + entry.fee)
      self.evicted_total_fee sum rest
    | none => self.evicted_total_fee sum rest

/-- The fee of a replacement is above that of what it evicts, and pays for its own relay. -/
def TxMemPool.check_replacement_fee (self : TxMemPool) (entry : MempoolEntry) (evicted : List Txid) : Result Unit := do
  let evicted_total_fee ← self.evicted_total_fee 0 evicted
  require (evicted_total_fee < entry.fee) (.invalid (.insufficient_fee_evicted entry.fee evicted_total_fee))
  let relay_fee ← self.incremental_relay_fee.get_fee entry.vsize.toNat
  let required_fee ← checked .i64 (evicted_total_fee + relay_fee)
  require (required_fee ≤ entry.fee) (.invalid (.insufficient_fee_relay entry.fee required_fee))

/-- The entries that a transaction replaces; none if it conflicts with none. -/
def TxMemPool.check_rbf (self : TxMemPool) (entry : MempoolEntry) : Result (List Txid) :=
  let direct_conflicts := self.direct_conflicts entry.tx
  if direct_conflicts.isEmpty then pure []
  else do
    self.check_signals direct_conflicts
    let evicted := self.all_evicted direct_conflicts
    check_spends_conflicting evicted entry.tx.vin
    require (evicted.length ≤ MAX_BIP125_REPLACEMENT_CANDIDATES)
      (.invalid (.too_many_potential_replacements MAX_BIP125_REPLACEMENT_CANDIDATES))
    self.check_replacement_fee entry evicted
    pure evicted

/-- Remove what is evicted and add the replacement. -/
def TxMemPool.replace (self : TxMemPool) (entry : MempoolEntry) (evict_txids : List Txid) : Result (TxMemPool × Bool) := do
  let pool ← self.remove_all_recursive evict_txids
  pool.add_unchecked entry

/-- The entries that are too old, in the order the hash map gives them out. -/
def TxMemPool.expired (self : TxMemPool) (cutoff : Int) (order : List Txid) : List Txid :=
  ((self.values order).filter fun entry => decide ((entry.time.toNat : Int) < cutoff)).map MempoolEntry.txid

/-- Remove the entries that are too old, and say how many these are. -/
def TxMemPool.expire_old (self : TxMemPool) (now expiry_hours : UInt64) (order : List Txid) : Result (TxMemPool × Nat) := do
  let age ← checked .u64 (expiry_hours.toNat * 3600)
  let expired := self.expired (max 0 (now.toNat - age)) order
  let pool ← self.remove_all_recursive expired
  pure (pool, expired.length)

/-- The checks before the commit: the entry, and what it replaces. -/
def TxMemPool.check_candidate (self : TxMemPool) (tx : Transaction) (fee : Amount) (vsize : UInt32) (height : Int) :
    Result (MempoolEntry × List Txid) := do
  require (!self.exists tx.txid) (.invalid (.txn_already_in_mempool tx.txid))
  check_dust tx.vout
  let fee_rate ← fee_rate_of fee vsize
  require (self.min_relay_fee.sats_per_kvb ≤ fee_rate.sats_per_kvb)
    (.invalid (.min_relay_fee_not_met fee_rate self.min_relay_fee))
  let entry ← MempoolEntry.new tx fee vsize 0 height false 0
  let evicted ← self.check_rbf entry
  self.check_descendant_limits entry
  require (self.has_room vsize) (.invalid .mempool_full)
  pure (entry, evicted)

def TxMemPool.commit (self : TxMemPool) (entry : MempoolEntry) (evicted : List Txid) : Result (TxMemPool × Bool) :=
  if evicted.isEmpty then self.add_unchecked entry else self.replace entry evicted

/-- Accept a transaction into the pool; a refusal leaves the pool as it is. -/
def accept_to_mempool (pool : TxMemPool) (tx : Transaction) (fee : Amount) (vsize : UInt32) (height : Int) :
    Result TxMemPool := do
  let (entry, evicted) ← pool.check_candidate tx fee vsize height
  let (pool, _) ← pool.commit entry evicted
  pure pool

end qubitcoin.mempool
