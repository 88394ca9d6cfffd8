import Qubitcoin.Coins.Flush
import Qubitcoin.Lib.MapTotal

/-! The usage counter of a coins cache is the size of its unspent entries, as long
    as no coin is added over a spent entry. -/

open qubitcoin primitives transaction mapTotal

namespace qubitcoin.coins

/-- What an entry adds to the counter: nothing once its coin is spent. -/
def CoinsCacheEntry.counted (self : CoinsCacheEntry) : Nat :=
  if self.coin.is_spent then 0 else self.coin.dynamic_memory_usage.toNat

def CoinsViewCache.counted (self : CoinsViewCache) : Nat := total CoinsCacheEntry.counted self.cache

theorem CoinsCacheEntry.counted_of_unspent {entry : CoinsCacheEntry} (hspent : entry.coin.is_spent = false) :
    entry.counted = entry.coin.dynamic_memory_usage.toNat := by
  unfold CoinsCacheEntry.counted
  rw [hspent]
  rfl

theorem CoinsCacheEntry.counted_of_spent {entry : CoinsCacheEntry} (hspent : entry.coin.is_spent = true) :
    entry.counted = 0 := by
  unfold CoinsCacheEntry.counted
  rw [hspent]
  rfl

inductive CacheCall where
  | fetch_coin (outpoint : OutPoint)
  | prefetch_coins (outpoints : List OutPoint)
  | add_coin (outpoint : OutPoint) (coin : Coin) (possible_overwrite : Bool)
  | spend_coin (outpoint : OutPoint)
  | uncache (outpoint : OutPoint)
  | batch_write (entries : List (OutPoint × Option Coin)) (best_block : BlockHash)
  | flush_to (order : List (Σ _ : OutPoint, CoinsCacheEntry)) (written : Bool)

/-- The cache after a call. A batch goes to the database below it. -/
def CoinsViewCache.call (self : CoinsViewCache) : CacheCall → Except Panic CoinsViewCache
  | .fetch_coin outpoint => .ok (self.fetch_coin outpoint).2
  | .prefetch_coins outpoints => .ok (self.prefetch_coins outpoints)
  | .add_coin outpoint coin possible_overwrite => self.add_coin outpoint coin possible_overwrite
  | .spend_coin outpoint => .ok (self.spend_coin outpoint).2
  | .uncache outpoint => .ok (self.uncache outpoint)
  | .batch_write entries best_block => .ok { self with base := self.base.batch_write entries best_block }
  | .flush_to order written => .ok (self.flush_to order written).2

/-- A flush iterates over the entries of the cache in some order. -/
def CacheCall.Allowed (call : CacheCall) (view : CoinsViewCache) : Prop :=
  match call with
  | .flush_to order _ => order.Perm view.cache.entries
  | _ => True

/-- The call stores a coin over a cached entry that is spent. -/
def CacheCall.RevivesSpent (call : CacheCall) (view : CoinsViewCache) : Prop :=
  match call with
  | .add_coin outpoint coin _ => coin.is_spent = false ∧ coin.tx_out.script_pubkey.is_unspendable = false ∧
      ∃ entry, view.cache.lookup outpoint = some entry ∧ entry.coin.is_spent = true
  | _ => False

/-- The cache in which a call takes bytes off the counter, and how many. -/
def CoinsViewCache.decrement (self : CoinsViewCache) : CacheCall → Option (CoinsViewCache × UInt64)
  | .add_coin outpoint coin possible_overwrite =>
    if coin.is_spent || coin.tx_out.script_pubkey.is_unspendable then none
    else
      match self.cache.lookup outpoint with
      | some existing => if !possible_overwrite && !existing.coin.is_spent then none
          else some (self, existing.coin.dynamic_memory_usage)
      | none => none
  | .spend_coin outpoint =>
    let fetched := (self.fetch_coin outpoint).2
    match fetched.cache.lookup outpoint with
    | some entry => if entry.coin.is_spent then none else some (fetched, entry.coin.dynamic_memory_usage)
    | none => none
  | .uncache outpoint =>
    match self.cache.lookup outpoint with
    | some entry => if entry.flags.is_dirty then none else some (self, entry.coin.dynamic_memory_usage)
    | none => none
  | _ => none

/-- The counter is the counted sum, as a number of 64 bits, and no decrement of the
    call takes more than that sum. -/
def CacheCall.Exact (call : CacheCall) (view after : CoinsViewCache) : Prop :=
  after.usage = UInt64.ofNat after.counted ∧
    ∀ {before : CoinsViewCache} {amount : UInt64}, view.decrement call = some (before, amount) →
      before.usage = UInt64.ofNat before.counted ∧ amount.toNat ≤ before.counted

/-- The counter is right, entries that are not `DIRTY` are unspent, and spent ones
    are empty. -/
structure CoinsViewCache.Accurate (view : CoinsViewCache) : Prop where
  usage : view.usage = UInt64.ofNat view.counted
  clean : ∀ {outpoint entry}, view.cache.lookup outpoint = some entry → entry.flags.is_dirty = false →
    entry.coin.is_spent = false
  spent : ∀ {outpoint entry}, view.cache.lookup outpoint = some entry → entry.coin.is_spent = true →
    entry.coin = .empty

theorem CoinsViewCache.new_accurate (base : CoinsViewDB) : (CoinsViewCache.new base).Accurate :=
  ⟨rfl, fun hcache => by simp [CoinsViewCache.new] at hcache, fun hcache => by simp [CoinsViewCache.new] at hcache⟩

theorem add_usage {usage amount : UInt64} {counted after : Nat} (husage : usage = UInt64.ofNat counted)
    (hafter : after = counted + amount.toNat) : usage + amount = UInt64.ofNat after := by
  rw [hafter, UInt64.ofNat_add, UInt64.ofNat_toNat, husage]

theorem sub_usage {usage amount : UInt64} {counted after : Nat} (husage : usage = UInt64.ofNat counted)
    (hafter : after + amount.toNat = counted) : usage - amount = UInt64.ofNat after := by
  rw [husage, ← hafter, UInt64.ofNat_add, UInt64.ofNat_toNat, UInt64.add_sub_cancel]

namespace CoinsViewCache.Accurate

variable {self : CoinsViewCache} (haccurate : self.Accurate)
include haccurate

theorem insert {outpoint : OutPoint} {entry : CoinsCacheEntry} {usage : UInt64}
    (husage : usage = UInt64.ofNat (total CoinsCacheEntry.counted (self.cache.insert outpoint entry)))
    (hclean : entry.flags.is_dirty = false → entry.coin.is_spent = false)
    (hspent : entry.coin.is_spent = true → entry.coin = .empty) :
    CoinsViewCache.Accurate { self with cache := self.cache.insert outpoint entry, usage } := by
  refine ⟨husage, ?_, ?_⟩ <;> intro query found hlookup hflag <;> dsimp only at hlookup <;>
    rw [lookup_insert_eq] at hlookup <;> split at hlookup
  · cases hlookup
    exact hclean hflag
  · exact haccurate.clean hlookup hflag
  · cases hlookup
    exact hspent hflag
  · exact haccurate.spent hlookup hflag

theorem erase {outpoint : OutPoint} {entry : CoinsCacheEntry} (hcache : self.cache.lookup outpoint = some entry)
    (hspent : entry.coin.is_spent = false) :
    CoinsViewCache.Accurate { self with
      cache := self.cache.erase outpoint
      usage := self.usage - entry.coin.dynamic_memory_usage } := by
  have hcounted := total_erase CoinsCacheEntry.counted hcache
  rw [CoinsCacheEntry.counted_of_unspent hspent] at hcounted
  refine ⟨sub_usage haccurate.usage hcounted, ?_, ?_⟩ <;> intro query found hlookup hflag <;>
    dsimp only at hlookup <;> rw [lookup_erase_eq] at hlookup <;> split at hlookup
  · cases hlookup
  · exact haccurate.clean hlookup hflag
  · cases hlookup
  · exact haccurate.spent hlookup hflag

theorem cache_clean {outpoint : OutPoint} {coin : Coin} (hcache : self.cache.lookup outpoint = none)
    (hspent : coin.is_spent = false) : (self.cache_clean outpoint coin).Accurate := by
  have hcounted := total_insert_new CoinsCacheEntry.counted hcache (.clean coin)
  rw [@CoinsCacheEntry.counted_of_unspent (.clean coin) hspent] at hcounted
  exact haccurate.insert (add_usage haccurate.usage hcounted) (fun _ => hspent)
    fun hempty => by cases hspent.symm.trans hempty

theorem fetch_coin (outpoint : OutPoint) : (self.fetch_coin outpoint).2.Accurate := by
  unfold CoinsViewCache.fetch_coin
  split
  · split <;> exact haccurate
  · next hcache =>
    split
    · next coin hbase =>
      split
      · exact haccurate
      · next hspent => exact haccurate.cache_clean hcache (by simpa using hspent)
    · exact haccurate

omit haccurate in
theorem insert_fetched {entries : List (OutPoint × Option Coin)} :
    ∀ {self : CoinsViewCache}, self.Accurate → (self.insert_fetched entries).Accurate := by
  induction entries with
  | nil => exact id
  | cons entry rest ih =>
    obtain ⟨outpoint, maybe_coin⟩ := entry
    intro self haccurate
    unfold CoinsViewCache.insert_fetched
    split
    · next coin hcache =>
      split
      · exact ih haccurate
      · next hspent => exact ih (haccurate.cache_clean hcache (by simpa using hspent))
    · exact ih haccurate

theorem add_coin {after : CoinsViewCache} {outpoint : OutPoint} {coin : Coin} {possible_overwrite : Bool}
    (hadd : self.add_coin outpoint coin possible_overwrite = .ok after)
    (hkeep : ¬ (CacheCall.add_coin outpoint coin possible_overwrite).RevivesSpent self) : after.Accurate := by
  unfold CoinsViewCache.add_coin at hadd
  split at hadd
  · cases hadd
  · next hspent =>
    have hspent : coin.is_spent = false := by simpa using hspent
    have hnever : ∀ {flags : CoinsCacheFlags}, (CoinsCacheEntry.mk coin flags).coin.is_spent = true →
        (CoinsCacheEntry.mk coin flags).coin = .empty := fun hempty => by cases hspent.symm.trans hempty
    split at hadd
    · cases hadd
      exact haccurate
    · next hspendable =>
      split at hadd
      · next existing hcache =>
        have hunspent : existing.coin.is_spent = false := by
          by_contra hrevived
          exact hkeep ⟨hspent, by simpa using hspendable, existing, hcache, by simpa using hrevived⟩
        split at hadd
        · cases hadd
        · cases hadd
          refine haccurate.insert ?_ (fun _ => hspent) hnever
          have herase := total_erase CoinsCacheEntry.counted hcache
          rw [CoinsCacheEntry.counted_of_unspent hunspent] at herase
          refine add_usage (sub_usage haccurate.usage herase) ?_
          rw [total_insert, CoinsCacheEntry.counted_of_unspent hspent, Nat.add_comm]
      · next hcache =>
        cases hadd
        refine haccurate.insert (add_usage haccurate.usage ?_) (fun _ => hspent) hnever
        rw [total_insert_new _ hcache, CoinsCacheEntry.counted_of_unspent hspent]
        rfl

theorem spend_cached (outpoint : OutPoint) : (self.spend_cached outpoint).2.Accurate := by
  unfold CoinsViewCache.spend_cached
  split
  · exact haccurate
  · next entry hcache =>
    split
    · exact haccurate
    · next hspent =>
      have hspent : entry.coin.is_spent = false := by simpa using hspent
      cases hfresh : entry.flags.is_fresh with
      | true => exact haccurate.erase hcache hspent
      | false =>
        refine haccurate.insert (sub_usage haccurate.usage ?_) nofun fun _ => rfl
        have hcounted := total_insert_old CoinsCacheEntry.counted hcache ⟨.empty, .DIRTY⟩
        rw [CoinsCacheEntry.counted_of_unspent hspent, @CoinsCacheEntry.counted_of_spent ⟨.empty, .DIRTY⟩ rfl] at hcounted
        exact hcounted

theorem uncache (outpoint : OutPoint) : (self.uncache outpoint).Accurate := by
  unfold CoinsViewCache.uncache
  split
  · next entry hcache =>
    split
    · exact haccurate
    · next hdirty => exact haccurate.erase hcache (haccurate.clean hcache (by simpa using hdirty))
  · exact haccurate

omit haccurate in
theorem retain_clean_spec {order : List (Σ _ : OutPoint, CoinsCacheEntry)} :
    ∀ {usage : UInt64} {counted : Nat}, usage = UInt64.ofNat counted →
      (retain_clean usage order).1.keys.Sublist order.keys ∧
      (retain_clean usage order).2 =
        UInt64.ofNat (counted + ((retain_clean usage order).1.map fun entry => entry.2.counted).sum) := by
  induction order with
  | nil => exact fun husage => ⟨.slnil, husage⟩
  | cons head rest ih =>
    obtain ⟨outpoint, entry⟩ := head
    intro usage counted husage
    unfold retain_clean
    split
    · obtain ⟨hkeys, hsum⟩ := ih husage
      exact ⟨hkeys.cons _, hsum⟩
    · next hspent =>
      dsimp only
      split
      · obtain ⟨hkeys, hsum⟩ := ih husage
        exact ⟨hkeys.cons _, hsum⟩
      · obtain ⟨hkeys, hsum⟩ := ih (add_usage husage rfl)
        refine ⟨hkeys.cons_cons _, hsum.trans ?_⟩
        have hunspent : (CoinsCacheEntry.clean entry.coin).coin.is_spent = false := Bool.eq_false_iff.mpr hspent
        rw [List.map_cons, List.sum_cons, CoinsCacheEntry.counted_of_unspent hunspent, Nat.add_assoc]
        rfl

theorem flush_to {order : List (Σ _ : OutPoint, CoinsCacheEntry)} (horder : order.Perm self.cache.entries)
    (written : Bool) : (self.flush_to order written).2.Accurate := by
  cases written with
  | false => exact haccurate
  | true =>
    have hkept := fun {outpoint entry} => @CoinsViewCache.flush_to_kept self order horder outpoint entry
    obtain ⟨hkeys, hsum⟩ := @retain_clean_spec order 0 0 rfl
    have hnodup : (retain_clean 0 order).1.NodupKeys :=
      hkeys.nodup ((List.perm_nodupKeys horder).mpr self.cache.nodupKeys)
    refine ⟨?_, fun hlookup _ => (hkept hlookup).2.1, fun hlookup hspent => ?_⟩
    · refine hsum.trans ?_
      rw [Nat.zero_add, ← total_toAList CoinsCacheEntry.counted hnodup]
      rfl
    · cases (hkept hlookup).2.1.symm.trans hspent

end CoinsViewCache.Accurate

theorem CoinsViewCache.Accurate.call {self after : CoinsViewCache} (haccurate : self.Accurate) {call : CacheCall}
    (hallowed : call.Allowed self) (hkeep : ¬ call.RevivesSpent self) (hcall : self.call call = .ok after) :
    after.Accurate := by
  cases call with
  | fetch_coin outpoint =>
    cases hcall
    exact haccurate.fetch_coin outpoint
  | prefetch_coins outpoints =>
    cases hcall
    exact haccurate.insert_fetched
  | add_coin outpoint coin possible_overwrite => exact haccurate.add_coin hcall hkeep
  | spend_coin outpoint =>
    cases hcall
    exact (haccurate.fetch_coin outpoint).spend_cached outpoint
  | uncache outpoint =>
    cases hcall
    exact haccurate.uncache outpoint
  | batch_write entries best_block =>
    cases hcall
    exact ⟨haccurate.usage, haccurate.clean, haccurate.spent⟩
  | flush_to order written =>
    cases hcall
    exact haccurate.flush_to hallowed written

theorem CoinsViewCache.Accurate.decrement_le {self : CoinsViewCache} (haccurate : self.Accurate) {call : CacheCall}
    (hkeep : ¬ call.RevivesSpent self) {before : CoinsViewCache} {amount : UInt64}
    (hdecrement : self.decrement call = some (before, amount)) :
    before.usage = UInt64.ofNat before.counted ∧ amount.toNat ≤ before.counted := by
  have hcounted : ∀ {view : CoinsViewCache} {outpoint : OutPoint} {entry : CoinsCacheEntry},
      view.cache.lookup outpoint = some entry → entry.coin.is_spent = false →
      entry.coin.dynamic_memory_usage.toNat ≤ view.counted := by
    intro view outpoint entry hcache hspent
    rw [← CoinsCacheEntry.counted_of_unspent hspent]
    exact le_total CoinsCacheEntry.counted hcache
  unfold CoinsViewCache.decrement at hdecrement
  split at hdecrement
  · next outpoint coin possible_overwrite =>
    split at hdecrement
    · cases hdecrement
    · next hstored =>
      rw [Bool.or_eq_true, not_or, Bool.not_eq_true, Bool.not_eq_true] at hstored
      split at hdecrement
      · next existing hcache =>
        split at hdecrement
        · cases hdecrement
        · cases hdecrement
          refine ⟨haccurate.usage, hcounted hcache ?_⟩
          by_contra hrevived
          exact hkeep ⟨hstored.1, hstored.2, existing, hcache, by simpa using hrevived⟩
      · cases hdecrement
  · next outpoint =>
    dsimp only at hdecrement
    split at hdecrement
    · next entry hcache =>
      split at hdecrement
      · cases hdecrement
      · next hspent =>
        cases hdecrement
        exact ⟨(haccurate.fetch_coin outpoint).usage, hcounted hcache (by simpa using hspent)⟩
    · cases hdecrement
  · split at hdecrement
    · next entry hcache =>
      split at hdecrement
      · cases hdecrement
      · next hdirty =>
        cases hdecrement
        exact ⟨haccurate.usage, hcounted hcache (haccurate.clean hcache (by simpa using hdirty))⟩
    · cases hdecrement
  · cases hdecrement

theorem CoinsViewCache.Accurate.not_exact_of_revives {self after : CoinsViewCache} (haccurate : self.Accurate)
    {call : CacheCall} (hrevives : call.RevivesSpent self) (hcall : self.call call = .ok after) :
    after.usage ≠ UInt64.ofNat after.counted := by
  cases call with
  | add_coin outpoint coin possible_overwrite =>
    obtain ⟨hspent, hspendable, entry, hcache, hentry⟩ := hrevives
    have hcounted : ∀ flags, total CoinsCacheEntry.counted (self.cache.insert outpoint ⟨coin, flags⟩) =
        self.counted + coin.dynamic_memory_usage.toNat := by
      intro flags
      have hold := total_insert_old CoinsCacheEntry.counted hcache ⟨coin, flags⟩
      rwa [CoinsCacheEntry.counted_of_spent hentry, CoinsCacheEntry.counted_of_unspent hspent] at hold
    have hcall : self.add_coin outpoint coin possible_overwrite = .ok after := hcall
    unfold CoinsViewCache.add_coin at hcall
    rw [if_neg (Bool.eq_false_iff.mp hspent), if_neg (Bool.eq_false_iff.mp hspendable), hcache] at hcall
    dsimp only at hcall
    rw [hentry, Bool.not_true, Bool.and_false, if_neg Bool.false_ne_true] at hcall
    cases hcall
    rw [haccurate.spent hcache hentry]
    intro hexact
    have hexact : self.usage - Coin.empty.dynamic_memory_usage + coin.dynamic_memory_usage =
        self.usage + coin.dynamic_memory_usage :=
      hexact.trans (add_usage haccurate.usage (hcounted _)).symm
    have hless : self.usage - 140 = self.usage := by
      have hcancel := congrArg (· - coin.dynamic_memory_usage) hexact
      rwa [UInt64.add_sub_cancel, UInt64.add_sub_cancel] at hcancel
    have hback := UInt64.sub_add_cancel self.usage 140
    rw [hless] at hback
    have hzero : self.usage + 140 - self.usage = self.usage - self.usage := congrArg (· - self.usage) hback
    rw [UInt64.add_comm, UInt64.add_sub_cancel, UInt64.sub_self] at hzero
    exact absurd hzero (by decide)
  | fetch_coin | prefetch_coins | spend_coin | uncache | batch_write | flush_to => cases hrevives

/-- The caches that calls reach from an empty one, each call meeting a condition
    where it is made. -/
inductive Reached (base : CoinsViewDB) (P : CacheCall → CoinsViewCache → Prop) : CoinsViewCache → Prop
  | new : Reached base P (.new base)
  | call {view after : CoinsViewCache} {call : CacheCall} (hview : Reached base P view) (hallowed : call.Allowed view)
    (hmeets : P call view) (hcall : view.call call = .ok after) : Reached base P after

theorem Reached.accurate {base : CoinsViewDB} {view : CoinsViewCache}
    (hreached : Reached base (fun call view => ¬ call.RevivesSpent view) view) : view.Accurate := by
  induction hreached with
  | new => exact CoinsViewCache.new_accurate base
  | call _ hallowed hkeep hcall ih => exact ih.call hallowed hkeep hcall

/-- As long as no coin was added over a spent entry, the counter is the counted sum,
    and a next call keeps it so if and only if it does not add such a coin either. -/
theorem usage_exact_iff {base : CoinsViewDB} {view : CoinsViewCache}
    (hreached : Reached base (fun call view => ¬ call.RevivesSpent view) view) :
    view.usage = UInt64.ofNat view.counted ∧
      ∀ {call : CacheCall} {after : CoinsViewCache}, call.Allowed view → view.call call = .ok after →
        (call.Exact view after ↔ ¬ call.RevivesSpent view) := by
  have haccurate := hreached.accurate
  refine ⟨haccurate.usage, fun {call after} hallowed hcall => ⟨fun hexact hrevives => ?_, fun hkeep => ⟨?_, ?_⟩⟩⟩
  · exact haccurate.not_exact_of_revives hrevives hcall hexact.1
  · exact (haccurate.call hallowed hkeep hcall).usage
  · exact haccurate.decrement_le hkeep

def one_coin : CoinsViewDB where
  coins := (∅ : HashMap OutPoint Coin).insert ⟨1, 0⟩ (.new ⟨5, ⟨[0x51]⟩⟩ 1 false)
  best_block := 1

theorem usage_exact_spend_coin :
    ∃ after, (CoinsViewCache.new one_coin).call (.spend_coin ⟨1, 0⟩) = .ok after ∧
      (CacheCall.spend_coin ⟨1, 0⟩).Exact (CoinsViewCache.new one_coin) after := by
  have hallowed : (CacheCall.spend_coin ⟨1, 0⟩).Allowed (CoinsViewCache.new one_coin) := trivial
  exact ⟨_, rfl, ((usage_exact_iff .new).2 hallowed rfl).mpr id⟩

/-- A coin that is spent and added again wraps the counter on the way, and leaves it
    short by the fixed bytes of an entry. -/
theorem usage_exact_fails :
    ∃ view, Reached one_coin (fun _ _ => True) view ∧
      ∃ after, view.call (.add_coin ⟨1, 0⟩ (.new ⟨5, ⟨[0x51]⟩⟩ 2 false) false) = .ok after ∧
        after.usage ≠ UInt64.ofNat after.counted ∧
        ∃ before amount, view.decrement (.add_coin ⟨1, 0⟩ (.new ⟨5, ⟨[0x51]⟩⟩ 2 false) false) = some (before, amount) ∧
          before.usage < amount := by
  have hspend : (CoinsViewCache.new one_coin).call (.spend_coin ⟨1, 0⟩) =
      .ok ((CoinsViewCache.new one_coin).spend_coin ⟨1, 0⟩).2 := rfl
  have hallowed : (CacheCall.spend_coin ⟨1, 0⟩).Allowed (CoinsViewCache.new one_coin) := trivial
  refine ⟨_, .call .new hallowed trivial hspend, _, rfl, ?_, _, _, rfl, ?_⟩ <;> decide +kernel

end qubitcoin.coins
