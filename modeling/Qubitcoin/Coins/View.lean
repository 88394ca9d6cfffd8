import Qubitcoin.Coins.Cache

/-! The outpoint-to-coin map that a coins cache shows, the flag invariant, and
    what each cache operation does to both. -/

open qubitcoin primitives transaction

namespace qubitcoin.coins

@[simp] theorem CoinsCacheFlags.is_dirty_NONE : CoinsCacheFlags.NONE.is_dirty = false := rfl
@[simp] theorem CoinsCacheFlags.is_fresh_NONE : CoinsCacheFlags.NONE.is_fresh = false := rfl
@[simp] theorem CoinsCacheFlags.is_dirty_DIRTY : CoinsCacheFlags.DIRTY.is_dirty = true := rfl
@[simp] theorem CoinsCacheFlags.is_fresh_DIRTY : CoinsCacheFlags.DIRTY.is_fresh = false := rfl
@[simp] theorem CoinsCacheFlags.is_dirty_DIRTY_FRESH : CoinsCacheFlags.DIRTY_FRESH.is_dirty = true := rfl
@[simp] theorem CoinsCacheFlags.bitor_DIRTY_FRESH :
    CoinsCacheFlags.DIRTY.bitor .FRESH = .DIRTY_FRESH := rfl

@[simp] theorem Coin.empty_is_spent : Coin.empty.is_spent = true := rfl

abbrev CoinsMap := OutPoint → Option Coin

theorem lookup_insert_eq {V : Type} (map : HashMap OutPoint V) (key query : OutPoint) (value : V) :
    (map.insert key value).lookup query = if query = key then some value else map.lookup query := by
  by_cases h : query = key
  · subst h
    simp
  · simp [h, AList.lookup_insert_ne h]

theorem lookup_erase_eq {V : Type} (map : HashMap OutPoint V) (key query : OutPoint) :
    (map.erase key).lookup query = if query = key then none else map.lookup query := by
  by_cases h : query = key
  · subst h
    simp
  · simp [h, AList.lookup_erase_ne h]

theorem CoinsViewDB.not_spent_of_get_coin {db : CoinsViewDB} {outpoint : OutPoint} {coin : Coin}
    (hget : db.get_coin outpoint = some coin) : coin.is_spent = false := by
  unfold CoinsViewDB.get_coin at hget
  split at hget
  · split at hget
    · cases hget
    · next hspent =>
      cases hget
      simpa using hspent
  · cases hget

def CoinsCacheEntry.shown (self : CoinsCacheEntry) : Option Coin :=
  if self.coin.is_spent then none else some self.coin

/-- The coin that a lookup returns at each outpoint. -/
def CoinsViewCache.visible (self : CoinsViewCache) : CoinsMap := fun outpoint => (self.fetch_coin outpoint).1

theorem CoinsViewCache.visible_eq (self : CoinsViewCache) (outpoint : OutPoint) :
    self.visible outpoint = match self.cache.lookup outpoint with
      | some entry => entry.shown
      | none => self.base.get_coin outpoint := by
  unfold CoinsViewCache.visible CoinsViewCache.fetch_coin CoinsCacheEntry.shown
  cases hcache : self.cache.lookup outpoint with
  | some entry =>
    dsimp only
    split <;> rfl
  | none =>
    cases hbase : self.base.get_coin outpoint with
    | none => rfl
    | some coin => simp [CoinsViewDB.not_spent_of_get_coin hbase]

theorem CoinsViewCache.visible_of_cached {self : CoinsViewCache} {outpoint : OutPoint}
    {entry : CoinsCacheEntry} (hcache : self.cache.lookup outpoint = some entry) :
    self.visible outpoint = entry.shown := by
  rw [self.visible_eq, hcache]

theorem CoinsViewCache.visible_of_not_cached {self : CoinsViewCache} {outpoint : OutPoint}
    (hcache : self.cache.lookup outpoint = none) :
    self.visible outpoint = self.base.get_coin outpoint := by
  rw [self.visible_eq, hcache]

/-- The flag invariant of a coins cache: the parent shows no coin under a
    `FRESH` entry, and an entry that is not `DIRTY` is what the parent shows. -/
structure CoinsViewCache.Coherent (view : CoinsViewCache) : Prop where
  fresh : ∀ {outpoint entry}, view.cache.lookup outpoint = some entry →
    entry.flags.is_fresh = true → view.base.get_coin outpoint = none
  clean : ∀ {outpoint entry}, view.cache.lookup outpoint = some entry →
    entry.flags.is_dirty = false → view.base.get_coin outpoint = some entry.coin

theorem CoinsViewCache.new_coherent (base : CoinsViewDB) : (CoinsViewCache.new base).Coherent :=
  ⟨fun hcache => by simp [CoinsViewCache.new] at hcache, fun hcache => by simp [CoinsViewCache.new] at hcache⟩

theorem CoinsViewCache.new_visible (base : CoinsViewDB) : (CoinsViewCache.new base).visible = base.get_coin := by
  funext outpoint
  exact CoinsViewCache.visible_of_not_cached (AList.lookup_empty _)

theorem CoinsViewCache.cache_clean_visible {self : CoinsViewCache} {outpoint : OutPoint} {coin : Coin}
    (hcache : self.cache.lookup outpoint = none) (hbase : self.base.get_coin outpoint = some coin) :
    (self.cache_clean outpoint coin).visible = self.visible := by
  funext query
  rw [CoinsViewCache.visible_eq, CoinsViewCache.visible_eq]
  simp only [CoinsViewCache.cache_clean, lookup_insert_eq]
  by_cases h : query = outpoint
  · subst h
    simp [hcache, hbase, CoinsCacheEntry.shown, CoinsCacheEntry.clean, CoinsViewDB.not_spent_of_get_coin hbase]
  · simp [h]

theorem CoinsViewCache.Coherent.cache_clean {self : CoinsViewCache} (hcoherent : self.Coherent)
    {outpoint : OutPoint} {coin : Coin} (hbase : self.base.get_coin outpoint = some coin) :
    (self.cache_clean outpoint coin).Coherent := by
  constructor <;> intro query entry hlookup hflag <;>
    simp only [CoinsViewCache.cache_clean, lookup_insert_eq] at hlookup ⊢ <;> split at hlookup
  · cases hlookup
    simp [CoinsCacheEntry.clean] at hflag
  · exact hcoherent.fresh hlookup hflag
  · next heq =>
    cases hlookup
    rw [heq, hbase]
    rfl
  · exact hcoherent.clean hlookup hflag

/-- A step that only fills the cache from the base. -/
structure CoinsViewCache.ReadsTo (view after : CoinsViewCache) : Prop where
  visible : after.visible = view.visible
  base : after.base = view.base
  coherent : view.Coherent → after.Coherent
  not_cached : ∀ {outpoint}, after.cache.lookup outpoint = none → view.cache.lookup outpoint = none
  fresh : ∀ {outpoint entry}, after.cache.lookup outpoint = some entry → entry.flags.is_fresh = true →
    view.cache.lookup outpoint = some entry

theorem CoinsViewCache.ReadsTo.refl (view : CoinsViewCache) : view.ReadsTo view :=
  ⟨rfl, rfl, id, id, fun hcache _ => hcache⟩

theorem CoinsViewCache.ReadsTo.trans {first second third : CoinsViewCache} (hleft : first.ReadsTo second)
    (hright : second.ReadsTo third) : first.ReadsTo third :=
  ⟨hright.visible.trans hleft.visible, hright.base.trans hleft.base, hright.coherent ∘ hleft.coherent,
    hleft.not_cached ∘ hright.not_cached, fun hcache hfresh => hleft.fresh (hright.fresh hcache hfresh) hfresh⟩

theorem CoinsViewCache.cache_clean_reads {self : CoinsViewCache} {outpoint : OutPoint} {coin : Coin}
    (hcache : self.cache.lookup outpoint = none) (hbase : self.base.get_coin outpoint = some coin) :
    self.ReadsTo (self.cache_clean outpoint coin) := by
  refine ⟨CoinsViewCache.cache_clean_visible hcache hbase, rfl, fun h => h.cache_clean hbase, ?_, ?_⟩
  · intro query hquery
    simp only [CoinsViewCache.cache_clean, lookup_insert_eq] at hquery
    split at hquery
    · cases hquery
    · exact hquery
  · intro query entry hquery hfresh
    simp only [CoinsViewCache.cache_clean, lookup_insert_eq] at hquery
    split at hquery
    · cases hquery
      simp [CoinsCacheEntry.clean] at hfresh
    · exact hquery

theorem CoinsViewCache.fetch_coin_reads (self : CoinsViewCache) (outpoint : OutPoint) :
    self.ReadsTo (self.fetch_coin outpoint).2 := by
  unfold CoinsViewCache.fetch_coin
  split
  · split <;> exact .refl self
  · next hcache =>
    split
    · next coin hbase =>
      split
      · exact .refl self
      · exact CoinsViewCache.cache_clean_reads hcache hbase
    · exact .refl self

theorem CoinsViewCache.fetch_coin_cached {self : CoinsViewCache} {outpoint : OutPoint} {coin : Coin}
    (hvisible : self.visible outpoint = some coin) :
    ∃ entry, (self.fetch_coin outpoint).2.cache.lookup outpoint = some entry := by
  unfold CoinsViewCache.visible CoinsViewCache.fetch_coin at hvisible
  unfold CoinsViewCache.fetch_coin
  cases hcache : self.cache.lookup outpoint with
  | some entry => cases hspent : entry.coin.is_spent <;> simp [hcache, hspent] at hvisible ⊢
  | none =>
    cases hbase : self.base.get_coin outpoint with
    | none => simp [hcache, hbase] at hvisible
    | some stored => simp [CoinsViewDB.not_spent_of_get_coin hbase, CoinsViewCache.cache_clean]

theorem CoinsViewCache.insert_fetched_reads (entries : List (OutPoint × Option Coin)) :
    ∀ self : CoinsViewCache, (∀ entry ∈ entries, self.base.get_coin entry.1 = entry.2) →
      self.ReadsTo (self.insert_fetched entries) := by
  induction entries with
  | nil => exact fun self _ => .refl self
  | cons entry rest ih =>
    obtain ⟨outpoint, maybe_coin⟩ := entry
    intro self hread
    have hrest : ∀ entry ∈ rest, self.base.get_coin entry.1 = entry.2 :=
      fun entry hmem => hread entry (List.mem_cons_of_mem _ hmem)
    unfold CoinsViewCache.insert_fetched
    split
    · next coin hcache =>
      have hbase : self.base.get_coin outpoint = some coin := hread (outpoint, some coin) (by simp)
      split
      · exact ih self hrest
      · exact (CoinsViewCache.cache_clean_reads hcache hbase).trans (ih _ hrest)
    · exact ih self hrest

theorem CoinsViewDB.mem_zip_get_coins {db : CoinsViewDB} {outpoints : List OutPoint}
    {entry : OutPoint × Option Coin} (hmem : entry ∈ outpoints.zip (db.get_coins outpoints)) :
    db.get_coin entry.1 = entry.2 := by
  induction outpoints with
  | nil => simp [CoinsViewDB.get_coins] at hmem
  | cons outpoint rest ih =>
    simp only [CoinsViewDB.get_coins, List.map_cons, List.zip_cons_cons, List.mem_cons] at hmem
    obtain rfl | hmem := hmem
    · rfl
    · exact ih hmem

theorem CoinsViewCache.prefetch_coins_reads (self : CoinsViewCache) (outpoints : List OutPoint) :
    self.ReadsTo (self.prefetch_coins outpoints) :=
  CoinsViewCache.insert_fetched_reads _ self fun _ hmem => CoinsViewDB.mem_zip_get_coins hmem

theorem CoinsViewCache.add_coin_visible {self after : CoinsViewCache} {outpoint : OutPoint} {coin : Coin}
    {possible_overwrite : Bool} (hadd : self.add_coin outpoint coin possible_overwrite = .ok after) :
    after.visible = (if coin.tx_out.script_pubkey.is_unspendable then self.visible
      else Function.update self.visible outpoint (some coin)) ∧ after.base = self.base := by
  unfold CoinsViewCache.add_coin at hadd
  split at hadd
  · cases hadd
  · next hspent =>
    split at hadd
    · next hunspendable =>
      cases hadd
      simp [hunspendable]
    · next hspendable =>
      have hshow : ∀ flags usage, CoinsViewCache.visible { self with
          cache := self.cache.insert outpoint ⟨coin, flags⟩, usage } =
          Function.update self.visible outpoint (some coin) := by
        intro flags usage
        funext query
        rw [CoinsViewCache.visible_eq, Function.update_apply]
        dsimp only
        rw [lookup_insert_eq]
        by_cases h : query = outpoint
        · simp [h, CoinsCacheEntry.shown, hspent]
        · simp [h, CoinsViewCache.visible_eq]
      rw [if_neg hspendable]
      split at hadd
      · split at hadd
        · cases hadd
        · cases hadd
          exact ⟨hshow _ _, rfl⟩
      · cases hadd
        exact ⟨hshow _ _, rfl⟩

/-- The outpoint is cached, or the base shows nothing there: a new entry for it
    may be marked `FRESH`. -/
def CoinsViewCache.SeesParent (view : CoinsViewCache) (outpoint : OutPoint) : Prop :=
  view.cache.lookup outpoint = none → view.base.get_coin outpoint = none

theorem CoinsViewCache.sees_parent_of_not_visible {self : CoinsViewCache} {outpoint : OutPoint}
    (hvisible : self.visible outpoint = none) : self.SeesParent outpoint := by
  intro hcache
  rw [← CoinsViewCache.visible_of_not_cached hcache]
  exact hvisible

theorem CoinsViewCache.ReadsTo.sees_parent {self after : CoinsViewCache} (hreads : self.ReadsTo after)
    {outpoint : OutPoint} (hparent : self.SeesParent outpoint) : after.SeesParent outpoint := by
  intro hcache
  rw [hreads.base]
  exact hparent (hreads.not_cached hcache)

/-- Adding a coin keeps the flag invariant when the outpoint is cached, or the
    base shows nothing there, or the coin is not stored at all. -/
theorem CoinsViewCache.Coherent.add_coin {self after : CoinsViewCache} (hcoherent : self.Coherent)
    {outpoint : OutPoint} {coin : Coin} {possible_overwrite : Bool}
    (hadd : self.add_coin outpoint coin possible_overwrite = .ok after)
    (hparent : coin.tx_out.script_pubkey.is_unspendable = false → self.SeesParent outpoint) :
    after.Coherent := by
  unfold CoinsViewCache.add_coin at hadd
  split at hadd
  · cases hadd
  · split at hadd
    · cases hadd
      exact hcoherent
    · next hspendable =>
      have hinsert : ∀ flags usage, flags.is_dirty = true →
          (flags.is_fresh = true → self.base.get_coin outpoint = none) →
          CoinsViewCache.Coherent { self with
            cache := self.cache.insert outpoint ⟨coin, flags⟩, usage } := by
        intro flags usage hdirty hfresh
        constructor <;> intro query entry hlookup hflag <;> dsimp only at hlookup ⊢ <;>
          rw [lookup_insert_eq] at hlookup <;> split at hlookup
        · next heq =>
          cases hlookup
          rw [heq]
          exact hfresh hflag
        · exact hcoherent.fresh hlookup hflag
        · cases hlookup
          rw [hdirty] at hflag
          cases hflag
        · exact hcoherent.clean hlookup hflag
      split at hadd
      · next existing hcache =>
        split at hadd
        · cases hadd
        · next hpanic =>
          cases hadd
          split
          · next hfresh =>
            -- A spent entry that is not dirty contradicts the invariant.
            simp only [Bool.and_eq_true, Bool.not_eq_true', not_and, Bool.not_eq_false] at hpanic hfresh
            have hbase := hcoherent.clean hcache hfresh.2
            have hspent := hpanic hfresh.1
            rw [CoinsViewDB.not_spent_of_get_coin hbase] at hspent
            cases hspent
          · exact hinsert _ _ rfl (by simp)
      · next hcache =>
        cases hadd
        exact hinsert _ _ rfl fun _ => hparent (by simpa using hspendable) hcache

theorem CoinsViewCache.add_coin_not_cached {self after : CoinsViewCache} {outpoint : OutPoint} {coin : Coin}
    {possible_overwrite : Bool} (hadd : self.add_coin outpoint coin possible_overwrite = .ok after)
    {query : OutPoint} (hcache : after.cache.lookup query = none) : self.cache.lookup query = none := by
  have hinsert : ∀ entry : CoinsCacheEntry, (self.cache.insert outpoint entry).lookup query = none →
      self.cache.lookup query = none := by
    intro entry hlookup
    rw [lookup_insert_eq] at hlookup
    split at hlookup
    · cases hlookup
    · exact hlookup
  unfold CoinsViewCache.add_coin at hadd
  split at hadd
  · cases hadd
  · split at hadd
    · cases hadd
      exact hcache
    · split at hadd
      · split at hadd
        · cases hadd
        · cases hadd
          exact hinsert _ hcache
      · cases hadd
        exact hinsert _ hcache

theorem CoinsViewCache.add_coin_sees_parent {self after : CoinsViewCache} {outpoint : OutPoint} {coin : Coin}
    {possible_overwrite : Bool} (hadd : self.add_coin outpoint coin possible_overwrite = .ok after)
    {query : OutPoint} (hparent : self.SeesParent query) : after.SeesParent query := by
  intro hcache
  rw [(CoinsViewCache.add_coin_visible hadd).2]
  exact hparent (CoinsViewCache.add_coin_not_cached hadd hcache)

theorem CoinsViewCache.fetch_coin_not_cached {self : CoinsViewCache} {outpoint : OutPoint}
    (hcache : (self.fetch_coin outpoint).2.cache.lookup outpoint = none) : self.visible outpoint = none := by
  cases hshown : self.visible outpoint with
  | none => rfl
  | some coin =>
    obtain ⟨entry, hentry⟩ := CoinsViewCache.fetch_coin_cached hshown
    rw [hcache] at hentry
    cases hentry

theorem CoinsViewCache.spend_cached_result {self : CoinsViewCache} {outpoint : OutPoint}
    (hcached : self.cache.lookup outpoint = none → self.visible outpoint = none) :
    (self.spend_cached outpoint).1 = self.visible outpoint := by
  unfold CoinsViewCache.spend_cached
  split
  · next hcache => exact (hcached hcache).symm
  · next entry hcache =>
    rw [CoinsViewCache.visible_of_cached hcache]
    unfold CoinsCacheEntry.shown
    split <;> rfl

theorem CoinsViewCache.spend_coin_result (self : CoinsViewCache) (outpoint : OutPoint) :
    (self.spend_coin outpoint).1 = self.visible outpoint := by
  have hsame := congrFun (self.fetch_coin_reads outpoint).visible outpoint
  rw [← hsame]
  exact CoinsViewCache.spend_cached_result fun hcache => by
    rw [hsame]
    exact CoinsViewCache.fetch_coin_not_cached hcache

theorem CoinsViewCache.spend_coin_base (self : CoinsViewCache) (outpoint : OutPoint) :
    (self.spend_coin outpoint).2.base = self.base := by
  rw [← (self.fetch_coin_reads outpoint).base]
  unfold CoinsViewCache.spend_coin CoinsViewCache.spend_cached
  split
  · rfl
  · split <;> rfl

theorem CoinsViewCache.Coherent.spend_cached {self : CoinsViewCache} (hcoherent : self.Coherent)
    {outpoint : OutPoint} (hcached : self.cache.lookup outpoint = none → self.visible outpoint = none) :
    (self.spend_cached outpoint).2.visible = Function.update self.visible outpoint none ∧
      (self.spend_cached outpoint).2.Coherent := by
  unfold CoinsViewCache.spend_cached
  split
  · next hcache =>
    refine ⟨?_, hcoherent⟩
    rw [← hcached hcache, Function.update_eq_self]
  · next entry hcache =>
    split
    · next hspent =>
      refine ⟨?_, hcoherent⟩
      have hnone : self.visible outpoint = none := by
        rw [CoinsViewCache.visible_of_cached hcache, CoinsCacheEntry.shown, if_pos hspent]
      rw [← hnone, Function.update_eq_self]
    · constructor
      · funext query
        rw [CoinsViewCache.visible_eq, Function.update_apply, CoinsViewCache.visible_eq]
        dsimp only
        by_cases h : query = outpoint
        · subst h
          cases hfresh : entry.flags.is_fresh with
          | true => simp [hcoherent.fresh hcache hfresh]
          | false => simp [CoinsCacheEntry.shown]
        · cases hfresh : entry.flags.is_fresh with
          | true => simp [h]
          | false => simp [h]
      · have hlookup : ∀ query other, query ≠ outpoint →
            (if entry.flags.is_fresh then self.cache.erase outpoint
              else self.cache.insert outpoint ⟨.empty, .DIRTY⟩).lookup query = some other →
            self.cache.lookup query = some other := by
          intro query other hne hsome
          split at hsome
          · rwa [lookup_erase_eq, if_neg hne] at hsome
          · rwa [lookup_insert_eq, if_neg hne] at hsome
        have hat : ∀ other, (if entry.flags.is_fresh then self.cache.erase outpoint
              else self.cache.insert outpoint ⟨.empty, .DIRTY⟩).lookup outpoint = some other →
            other.flags = .DIRTY := by
          intro other hsome
          split at hsome
          · simp at hsome
          · simp only [lookup_insert_eq, if_true, Option.some.injEq] at hsome
            rw [← hsome]
        constructor
        · intro query other hsome hfresh
          by_cases h : query = outpoint
          · subst h
            rw [hat other hsome] at hfresh
            cases hfresh
          · exact hcoherent.fresh (hlookup query other h hsome) hfresh
        · intro query other hsome hdirty
          by_cases h : query = outpoint
          · subst h
            rw [hat other hsome] at hdirty
            cases hdirty
          · exact hcoherent.clean (hlookup query other h hsome) hdirty

theorem CoinsViewCache.Coherent.spend_coin {self : CoinsViewCache} (hcoherent : self.Coherent)
    (outpoint : OutPoint) :
    (self.spend_coin outpoint).2.visible = Function.update self.visible outpoint none ∧
      (self.spend_coin outpoint).2.Coherent := by
  have hsame := (self.fetch_coin_reads outpoint).visible
  rw [← hsame]
  exact ((self.fetch_coin_reads outpoint).coherent hcoherent).spend_cached fun hcache => by
    rw [hsame]
    exact CoinsViewCache.fetch_coin_not_cached hcache

theorem CoinsViewCache.Coherent.spend_coin_sees_parent {self : CoinsViewCache} (hcoherent : self.Coherent)
    (outpoint : OutPoint) {query : OutPoint} (hparent : self.SeesParent query) :
    (self.spend_coin outpoint).2.SeesParent query := by
  intro hcache
  rw [self.spend_coin_base outpoint]
  have hreads := self.fetch_coin_reads outpoint
  have hkeep := hreads.sees_parent hparent
  unfold CoinsViewCache.SeesParent at hkeep
  rw [hreads.base] at hkeep
  unfold CoinsViewCache.spend_coin CoinsViewCache.spend_cached at hcache
  split at hcache
  · exact hkeep hcache
  · next entry hentry =>
    split at hcache
    · exact hkeep hcache
    · dsimp only at hcache
      split at hcache
      · next hfresh =>
        rw [lookup_erase_eq] at hcache
        split at hcache
        · next heq =>
          rw [heq, ← hreads.base]
          exact (hreads.coherent hcoherent).fresh hentry hfresh
        · exact hkeep hcache
      · rw [lookup_insert_eq] at hcache
        split at hcache
        · cases hcache
        · exact hkeep hcache

end qubitcoin.coins
