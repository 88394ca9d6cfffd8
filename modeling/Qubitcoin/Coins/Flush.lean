import Qubitcoin.Coins.View

/-! A flush writes exactly the visible map to the base. -/

open qubitcoin primitives transaction

namespace qubitcoin.coins

theorem lookup_apply_write (coins : HashMap OutPoint Coin) (key outpoint : OutPoint) (write : Option Coin) :
    (apply_write coins key write).lookup outpoint = if outpoint = key then write else coins.lookup outpoint := by
  cases write with
  | none => exact lookup_erase_eq _ _ _
  | some coin => exact lookup_insert_eq _ _ _ _

theorem apply_writes_of_not_mem {coins : HashMap OutPoint Coin} {entries : List (OutPoint × Option Coin)}
    {outpoint : OutPoint} (hmem : outpoint ∉ entries.map Prod.fst) :
    (apply_writes coins entries).lookup outpoint = coins.lookup outpoint := by
  induction entries generalizing coins with
  | nil => rfl
  | cons entry rest ih =>
    obtain ⟨key, write⟩ := entry
    simp only [List.map_cons, List.mem_cons, not_or] at hmem
    rw [apply_writes, ih hmem.2, lookup_apply_write, if_neg hmem.1]

theorem apply_writes_of_mem {coins : HashMap OutPoint Coin} {entries : List (OutPoint × Option Coin)}
    (hkeys : (entries.map Prod.fst).Nodup) {outpoint : OutPoint} {write : Option Coin}
    (hmem : (outpoint, write) ∈ entries) : (apply_writes coins entries).lookup outpoint = write := by
  induction entries generalizing coins with
  | nil => cases hmem
  | cons entry rest ih =>
    rw [List.map_cons, List.nodup_cons] at hkeys
    rcases List.mem_cons.mp hmem with rfl | hmem
    · rw [apply_writes, apply_writes_of_not_mem hkeys.1, lookup_apply_write, if_pos rfl]
    · exact ih hkeys.2 hmem

theorem mem_flush_writes {order : List (Σ _ : OutPoint, CoinsCacheEntry)} {outpoint : OutPoint}
    {value : Option Coin} :
    (outpoint, value) ∈ flush_writes order ↔ ∃ entry : CoinsCacheEntry, ⟨outpoint, entry⟩ ∈ order ∧
      entry.flags.is_dirty = true ∧ ¬ (entry.flags.is_fresh = true ∧ entry.coin.is_spent = true) ∧
      value = entry.shown := by
  unfold flush_writes CoinsCacheEntry.shown
  simp only [List.mem_filterMap, Sigma.exists]
  constructor
  · rintro ⟨key, entry, hmem, hwrite⟩
    split at hwrite
    · cases hwrite
    · next hdirty =>
      split at hwrite
      · cases hwrite
      · next hkeep =>
        have hdirty' : entry.flags.is_dirty = true := by simpa using hdirty
        have hkeep' : ¬ (entry.flags.is_fresh = true ∧ entry.coin.is_spent = true) := by simpa using hkeep
        split at hwrite
        · next hspent =>
          cases hwrite
          exact ⟨entry, hmem, hdirty', hkeep', by simp [hspent]⟩
        · next hspent =>
          cases hwrite
          exact ⟨entry, hmem, hdirty', hkeep', by simp [hspent]⟩
  · rintro ⟨entry, hmem, hdirty, hkeep, rfl⟩
    refine ⟨outpoint, entry, hmem, ?_⟩
    cases hspent : entry.coin.is_spent <;> cases hfresh : entry.flags.is_fresh <;> simp_all

theorem flush_writes_keys_nodup {order : List (Σ _ : OutPoint, CoinsCacheEntry)}
    (hkeys : order.NodupKeys) : ((flush_writes order).map Prod.fst).Nodup := by
  have hsub : ((flush_writes order).map Prod.fst).Sublist order.keys := by
    unfold flush_writes List.keys
    induction order with
    | nil => simp
    | cons entry rest ih =>
      obtain ⟨key, entry⟩ := entry
      have htail := ih (List.nodupKeys_cons.mp hkeys).2
      simp only [List.filterMap_cons]
      split
      · exact htail.cons _
      · next pair hpair =>
        have hfst : pair.1 = key := by
          split at hpair
          · cases hpair
          · split at hpair
            · cases hpair
            · split at hpair <;> (cases hpair; rfl)
        rw [List.map_cons, List.map_cons, hfst]
        exact htail.cons_cons _
  exact hsub.nodup hkeys

theorem mem_retain_clean {order : List (Σ _ : OutPoint, CoinsCacheEntry)} {usage : UInt64}
    {outpoint : OutPoint} {entry : CoinsCacheEntry}
    (hmem : (⟨outpoint, entry⟩ : Σ _ : OutPoint, CoinsCacheEntry) ∈ (retain_clean usage order).1) :
    ∃ cached : CoinsCacheEntry, ⟨outpoint, cached⟩ ∈ order ∧ cached.coin.is_spent = false ∧
      entry = .clean cached.coin := by
  induction order generalizing usage with
  | nil => simp [retain_clean] at hmem
  | cons head rest ih =>
    obtain ⟨key, cached⟩ := head
    have hlift : (∃ cached : CoinsCacheEntry, (⟨outpoint, cached⟩ : Σ _ : OutPoint, CoinsCacheEntry) ∈ rest ∧
        cached.coin.is_spent = false ∧ entry = .clean cached.coin) →
        ∃ other : CoinsCacheEntry, ⟨outpoint, other⟩ ∈ (⟨key, cached⟩ :: rest : List (Σ _ : OutPoint, CoinsCacheEntry)) ∧
          other.coin.is_spent = false ∧ entry = .clean other.coin := by
      rintro ⟨other, hother, hrest⟩
      exact ⟨other, List.mem_cons_of_mem _ hother, hrest⟩
    unfold retain_clean at hmem
    split at hmem
    · exact hlift (ih hmem)
    · next hspent =>
      dsimp only at hmem
      split at hmem
      · exact hlift (ih hmem)
      · rcases List.mem_cons.mp hmem with heq | hmem
        · cases heq
          exact ⟨cached, by simp, by simpa using hspent, rfl⟩
        · exact hlift (ih hmem)

theorem mem_order_iff {self : CoinsViewCache} {order : List (Σ _ : OutPoint, CoinsCacheEntry)}
    (horder : order.Perm self.cache.entries) {outpoint : OutPoint} {entry : CoinsCacheEntry} :
    (⟨outpoint, entry⟩ : Σ _ : OutPoint, CoinsCacheEntry) ∈ order ↔ self.cache.lookup outpoint = some entry := by
  rw [horder.mem_iff, ← AList.mem_lookup_iff]
  rfl

/-- The flag invariant in its weakest form: an entry that is not `DIRTY` shows what
    the base shows, be it no coin at all. -/
structure CoinsViewCache.Flagged (view : CoinsViewCache) : Prop where
  fresh : ∀ {outpoint entry}, view.cache.lookup outpoint = some entry →
    entry.flags.is_fresh = true → view.base.get_coin outpoint = none
  clean : ∀ {outpoint entry}, view.cache.lookup outpoint = some entry →
    entry.flags.is_dirty = false → view.base.get_coin outpoint = entry.shown

theorem CoinsViewCache.Coherent.flagged {self : CoinsViewCache} (hcoherent : self.Coherent) : self.Flagged where
  fresh := hcoherent.fresh
  clean hcache hclean := by
    have hbase := hcoherent.clean hcache hclean
    rw [hbase, CoinsCacheEntry.shown, CoinsViewDB.not_spent_of_get_coin hbase]
    rfl

theorem CoinsViewCache.Flagged.batch_write_get_coin {self : CoinsViewCache} (hflagged : self.Flagged)
    {order : List (Σ _ : OutPoint, CoinsCacheEntry)} (horder : order.Perm self.cache.entries)
    (hash : BlockHash) :
    (self.base.batch_write (flush_writes order) hash).get_coin = self.visible := by
  have hnodup := flush_writes_keys_nodup
    ((List.perm_nodupKeys horder).mpr self.cache.nodupKeys)
  funext outpoint
  rw [self.visible_eq]
  have hkeep : (∀ value, (outpoint, value) ∉ flush_writes order) →
      (self.base.batch_write (flush_writes order) hash).get_coin outpoint = self.base.get_coin outpoint := by
    intro hnot
    have hkey : outpoint ∉ (flush_writes order).map Prod.fst := by
      intro hmem
      obtain ⟨⟨key, value⟩, hpair, rfl⟩ := List.mem_map.mp hmem
      exact hnot value hpair
    simp only [CoinsViewDB.get_coin, CoinsViewDB.batch_write, apply_writes_of_not_mem hkey]
  cases hcache : self.cache.lookup outpoint with
  | none =>
    refine hkeep fun value hmem => ?_
    obtain ⟨entry, hentry, _⟩ := mem_flush_writes.mp hmem
    rw [mem_order_iff horder, hcache] at hentry
    cases hentry
  | some entry =>
    have hunique : ∀ other : CoinsCacheEntry, (⟨outpoint, other⟩ : Σ _ : OutPoint, CoinsCacheEntry) ∈ order →
        other = entry := by
      intro other hother
      rw [mem_order_iff horder, hcache] at hother
      exact (Option.some.inj hother).symm
    by_cases hdirty : entry.flags.is_dirty = true
    · by_cases hskip : entry.flags.is_fresh = true ∧ entry.coin.is_spent = true
      · -- Skipped: the base has nothing there to erase.
        rw [hkeep, hflagged.fresh hcache hskip.1]
        · simp [CoinsCacheEntry.shown, hskip.2]
        · intro value hmem
          obtain ⟨other, hother, _, hnot, _⟩ := mem_flush_writes.mp hmem
          rw [hunique other hother] at hnot
          exact hnot hskip
      · have hmem : (outpoint, entry.shown) ∈ flush_writes order :=
          mem_flush_writes.mpr ⟨entry, (mem_order_iff horder).mpr hcache, hdirty, hskip, rfl⟩
        simp only [CoinsViewDB.get_coin, CoinsViewDB.batch_write, apply_writes_of_mem hnodup hmem]
        unfold CoinsCacheEntry.shown
        cases hspent : entry.coin.is_spent <;> simp [hspent]
    · have hclean : entry.flags.is_dirty = false := by simpa using hdirty
      rw [hkeep, hflagged.clean hcache hclean]
      intro value hmem
      obtain ⟨other, hother, hother_dirty, _⟩ := mem_flush_writes.mp hmem
      rw [hunique other hother] at hother_dirty
      exact hdirty hother_dirty

theorem CoinsViewCache.flush_to_kept {self : CoinsViewCache} {order : List (Σ _ : OutPoint, CoinsCacheEntry)}
    (horder : order.Perm self.cache.entries) {outpoint : OutPoint} {entry : CoinsCacheEntry}
    (hlookup : (self.flush_to order true).2.cache.lookup outpoint = some entry) :
    entry.flags = .NONE ∧ entry.coin.is_spent = false ∧ self.visible outpoint = some entry.coin := by
  have hdlookup : (retain_clean 0 order).1.dlookup outpoint = some entry := by
    rw [← AList.lookup_to_alist]
    exact hlookup
  have hmem := List.of_mem_dlookup hdlookup
  obtain ⟨cached, hcached, hspent, rfl⟩ := mem_retain_clean hmem
  rw [mem_order_iff horder] at hcached
  refine ⟨rfl, hspent, ?_⟩
  rw [CoinsViewCache.visible_of_cached hcached]
  simp [CoinsCacheEntry.shown, CoinsCacheEntry.clean, hspent]

theorem CoinsViewCache.Flagged.flush_to_visible {self : CoinsViewCache} (hflagged : self.Flagged)
    {order : List (Σ _ : OutPoint, CoinsCacheEntry)} (horder : order.Perm self.cache.entries) :
    (self.flush_to order true).2.visible = self.visible := by
  have hbase := hflagged.batch_write_get_coin horder self.best_block
  funext outpoint
  rw [CoinsViewCache.visible_eq]
  cases hlookup : (self.flush_to order true).2.cache.lookup outpoint with
  | none => exact congrFun hbase outpoint
  | some entry =>
    obtain ⟨_, hspent, hvisible⟩ := CoinsViewCache.flush_to_kept horder hlookup
    simp [CoinsCacheEntry.shown, hspent, hvisible]

theorem CoinsViewCache.Coherent.flush_to {self : CoinsViewCache} (hcoherent : self.Coherent)
    {order : List (Σ _ : OutPoint, CoinsCacheEntry)} (horder : order.Perm self.cache.entries) :
    (self.flush_to order true).2.visible = self.visible ∧
      (self.flush_to order true).2.base.get_coin = self.visible ∧
      (self.flush_to order true).2.Coherent := by
  have hbase := hcoherent.flagged.batch_write_get_coin horder self.best_block
  refine ⟨hcoherent.flagged.flush_to_visible horder, hbase, ⟨?_, ?_⟩⟩
  · intro outpoint entry hlookup hfresh
    rw [(CoinsViewCache.flush_to_kept horder hlookup).1] at hfresh
    cases hfresh
  · intro outpoint entry hlookup _
    exact (congrFun hbase outpoint).trans (CoinsViewCache.flush_to_kept horder hlookup).2.2

/-- A flush is all or nothing: an accepted one stores exactly the visible map, keeps
    showing it and leaves no pending entry; a refused one changes nothing, so that the
    next accepted one stores the same map. -/
theorem CoinsViewCache.Flagged.flush_to_all_or_nothing {self : CoinsViewCache} (hflagged : self.Flagged)
    {order : List (Σ _ : OutPoint, CoinsCacheEntry)} (horder : order.Perm self.cache.entries) :
    ((self.flush_to order true).1 = true ∧ (self.flush_to order true).2.base.get_coin = self.visible ∧
      (self.flush_to order true).2.visible = self.visible ∧
      ∀ outpoint entry, (self.flush_to order true).2.cache.lookup outpoint = some entry →
        entry.flags.is_dirty = false ∧ entry.flags.is_fresh = false) ∧
    (self.flush_to order false).1 = false ∧ (self.flush_to order false).2 = self ∧
      ∀ later : List (Σ _ : OutPoint, CoinsCacheEntry), later.Perm self.cache.entries →
        ((self.flush_to order false).2.flush_to later true).2.base.get_coin = self.visible := by
  refine ⟨⟨rfl, hflagged.batch_write_get_coin horder self.best_block, hflagged.flush_to_visible horder, ?_⟩, rfl, rfl,
    fun later hlater => hflagged.batch_write_get_coin hlater self.best_block⟩
  intro outpoint entry hlookup
  rw [(CoinsViewCache.flush_to_kept horder hlookup).1]
  exact ⟨rfl, rfl⟩

/-- A cache over a database of one coin: that coin spent, and a new one. -/
def pending_view : CoinsViewCache where
  base := { coins := (∅ : HashMap OutPoint Coin).insert ⟨1, 0⟩ (.new ⟨5, ⟨[]⟩⟩ 1 false), best_block := 1 }
  cache := ((∅ : HashMap OutPoint CoinsCacheEntry).insert ⟨1, 0⟩ ⟨.empty, .DIRTY⟩).insert ⟨2, 0⟩
    ⟨.new ⟨5, ⟨[]⟩⟩ 2 false, .DIRTY_FRESH⟩
  best_block := 2
  usage := 140

theorem pending_view_flagged : pending_view.Flagged := by
  have hentry : ∀ {outpoint : OutPoint} {entry : CoinsCacheEntry}, pending_view.cache.lookup outpoint = some entry →
      (outpoint = ⟨2, 0⟩ ∧ entry.flags = .DIRTY_FRESH) ∨ entry.flags = .DIRTY := by
    intro outpoint entry hlookup
    unfold pending_view at hlookup
    rw [lookup_insert_eq, lookup_insert_eq] at hlookup
    split at hlookup
    · next hsame =>
      cases hlookup
      exact .inl ⟨hsame, rfl⟩
    · split at hlookup
      · cases hlookup
        exact .inr rfl
      · cases hlookup
  constructor
  · intro outpoint entry hlookup hfresh
    obtain ⟨rfl, _⟩ | hdirty := hentry hlookup
    · decide
    · rw [hdirty] at hfresh
      cases hfresh
  · intro outpoint entry hlookup hclean
    obtain ⟨_, hflags⟩ | hflags := hentry hlookup <;> rw [hflags] at hclean <;> cases hclean

theorem pending_view_flush_to :
    (pending_view.flush_to pending_view.cache.entries true).2.base.get_coin = pending_view.visible :=
  (CoinsViewCache.Flagged.flush_to_all_or_nothing pending_view_flagged (List.Perm.refl _)).1.2.1

end qubitcoin.coins
