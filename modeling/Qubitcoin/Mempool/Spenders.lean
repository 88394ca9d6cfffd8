import Qubitcoin.Coins.View
import Qubitcoin.Mempool.Statistics

/-! The index of spent outpoints and the running fee total, over the operations of
    the pool. -/

open qubitcoin primitives script transaction Relation weight

namespace qubitcoin.mempool

/-- Forget all entries; the sequence number stays. -/
def TxMemPool.clear (self : TxMemPool) : TxMemPool := { self with entries := ∅, spenders := ∅, total_fee := 0 }

def TxMemPool.fee_sum (self : TxMemPool) : Int := (self.entries.entries.map fun entry => entry.2.fee).sum

/-- An input of the transaction spends the outpoint. -/
def SpendsOutPoint (tx : Transaction) (outpoint : OutPoint) : Prop := ∃ input ∈ tx.vin, input.prevout = outpoint

instance (tx : Transaction) (outpoint : OutPoint) : Decidable (SpendsOutPoint tx outpoint) :=
  inferInstanceAs (Decidable (∃ input ∈ tx.vin, input.prevout = outpoint))

/-- What the index and the total say of the entries: no outpoint is spent by two of
    them, each is listed under the outpoints it spends and nothing else is, and the
    total is the sum of the fees, as a number of 64 bits. -/
structure Indexed (pool : TxMemPool) : Prop where
  exclusive : ∀ {txid other : Txid} {entry found : MempoolEntry} {outpoint : OutPoint},
    pool.entries.lookup txid = some entry → pool.entries.lookup other = some found →
    SpendsOutPoint entry.tx outpoint → SpendsOutPoint found.tx outpoint → txid = other
  spenders : ∀ {outpoint : OutPoint} {txid : Txid}, pool.spenders.lookup outpoint = some txid ↔
    ∃ entry, pool.entries.lookup txid = some entry ∧ SpendsOutPoint entry.tx outpoint
  total_fee : pool.total_fee = wrap_i64 pool.fee_sum

/-- A call on the pool. The orders are those in which the hash map gives its entries
    out. -/
inductive Call where
  | accept_to_mempool (tx : Transaction) (fee : Amount) (vsize : UInt32) (height : Int)
  | replace (entry : MempoolEntry) (evict_txids : List Txid)
  | remove_entry (txid : Txid)
  | remove_recursive (txid : Txid)
  | remove_for_block (txids : List Txid)
  | trim_to_size (orders : List (List Txid))
  | expire_old (now expiry_hours : UInt64) (order : List Txid)
  | clear

def Call.apply (pool : TxMemPool) : Call → Result TxMemPool
  | .accept_to_mempool tx fee vsize height => mempool.accept_to_mempool pool tx fee vsize height
  | .replace entry evict_txids => Prod.fst <$> pool.replace entry evict_txids
  | .remove_entry txid => Prod.fst <$> pool.remove_entry txid
  | .remove_recursive txid => Prod.fst <$> pool.remove_recursive txid
  | .remove_for_block txids => pool.remove_for_block txids
  | .trim_to_size orders => pool.trim_to_size orders
  | .expire_old now expiry_hours order => Prod.fst <$> pool.expire_old now expiry_hours order
  | .clear => pure pool.clear

/-- The states that calls lead to from an empty pool, each call meeting a condition. A
    call that is refused leaves the pool as it is. -/
inductive Reached (condition : TxMemPool → Call → Prop) : TxMemPool → Prop
  | empty (min_relay_fee : FeeRate) (max_size : Nat) : Reached condition (.new_with_limits min_relay_fee max_size)
  | step {pool after : TxMemPool} {call : Call} (hpool : Reached condition pool) (hcondition : condition pool call)
    (happly : call.apply pool = .ok after) : Reached condition after

/-- The evictions hold every other entry that spends what the replacement spends. -/
def Covers (pool : TxMemPool) (entry : MempoolEntry) (evict_txids : List Txid) : Prop :=
  ∀ (txid : Txid) (found : MempoolEntry) (outpoint : OutPoint), pool.entries.lookup txid = some found →
    SpendsOutPoint found.tx outpoint → SpendsOutPoint entry.tx outpoint → txid ≠ entry.txid → txid ∈ evict_txids

/-- A replacement evicts what it conflicts with. -/
def Call.Covering (pool : TxMemPool) : Call → Prop
  | .replace entry evict_txids => Covers pool entry evict_txids
  | _ => True

theorem fee_sum_eq_package (pool : TxMemPool) : pool.fee_sum = (package pool.entries fun _ => True).2.2 := by
  have hfee : ∀ entry ∈ pool.entries.entries, (own_of pool.entries entry.1).2.2 = entry.2.fee := by
    intro entry hmem
    have hlookup : pool.entries.lookup entry.1 = some entry.2 := AList.mem_lookup_iff.mpr hmem
    rw [own_of, hlookup]
    rfl
  have hchosen : chosen pool.entries.keys.toFinset (fun _ => True) = pool.entries.keys.toFinset := by
    ext txid
    rw [mem_chosen, and_true]
  unfold TxMemPool.fee_sum package total
  rw [hchosen, Prod.snd_sum, Prod.snd_sum, List.sum_toFinset _ pool.entries.keys_nodup, AList.keys, List.keys,
    List.map_map]
  exact congrArg List.sum (List.map_congr_left fun entry hmem => (hfee entry hmem).symm)

theorem wrap_i64_add (a b : Int) : wrap_i64 (wrap_i64 a + b) = wrap_i64 (a + b) := Int.bmod_add_bmod

theorem wrap_i64_sub (a b : Int) : wrap_i64 (wrap_i64 a - b) = wrap_i64 (a - b) := Int.bmod_sub_bmod

theorem lookup_foldl_inputs {change : HashMap OutPoint Txid → OutPoint → HashMap OutPoint Txid} {value : Option Txid}
    (hchange : ∀ spenders key outpoint,
      (change spenders key).lookup outpoint = if outpoint = key then value else spenders.lookup outpoint)
    {inputs : List TxIn} : ∀ {spenders : HashMap OutPoint Txid} {outpoint : OutPoint},
      (inputs.foldl (fun spenders input => change spenders input.prevout) spenders).lookup outpoint =
        if ∃ input ∈ inputs, input.prevout = outpoint then value else spenders.lookup outpoint := by
  induction inputs with
  | nil =>
    intro spenders outpoint
    rw [if_neg (by rintro ⟨_, ⟨⟩, _⟩)]
    rfl
  | cons input rest ih =>
    intro spenders outpoint
    rw [List.foldl_cons, ih, hchange]
    simp only [List.mem_cons, exists_eq_or_imp, eq_comm (a := outpoint)]
    by_cases hrest : ∃ input ∈ rest, input.prevout = outpoint
    · rw [if_pos hrest, if_pos (.inr hrest)]
    · rw [if_neg hrest]
      simp only [hrest, or_false]

theorem lookup_insert_inputs (tx : Transaction) (txid : Txid) (spenders : HashMap OutPoint Txid) (outpoint : OutPoint) :
    (tx.vin.foldl (fun spenders input => spenders.insert input.prevout txid) spenders).lookup outpoint =
      if SpendsOutPoint tx outpoint then some txid else spenders.lookup outpoint :=
  @lookup_foldl_inputs (fun spenders key => spenders.insert key txid) (some txid)
    (fun spenders key outpoint => coins.lookup_insert_eq spenders key outpoint txid) tx.vin spenders outpoint

theorem lookup_erase_inputs (tx : Transaction) (spenders : HashMap OutPoint Txid) (outpoint : OutPoint) :
    (tx.vin.foldl (fun spenders input => spenders.erase input.prevout) spenders).lookup outpoint =
      if SpendsOutPoint tx outpoint then none else spenders.lookup outpoint :=
  @lookup_foldl_inputs (fun spenders key => spenders.erase key) none coins.lookup_erase_eq tx.vin spenders outpoint

theorem TxMemPool.add_unchecked_cases {pool after : TxMemPool} {entry : MempoolEntry} {added : Bool}
    (hadd : pool.add_unchecked entry = .ok (after, added)) :
    after = pool ∨
      (pool.entries.lookup entry.txid = none ∧ ∃ new updated, SameEntries pool.entries updated ∧
        new.tx = entry.tx ∧ after.entries = updated.insert entry.txid new ∧
        after.spenders =
          entry.tx.vin.foldl (fun spenders input => spenders.insert input.prevout entry.txid) pool.spenders ∧
        after.total_fee = wrap_i64 (pool.total_fee + new.fee)) := by
  unfold TxMemPool.add_unchecked at hadd
  dsimp only at hadd
  split at hadd
  · cases hadd
    exact .inl rfl
  · next hnew =>
    obtain ⟨new, hparents, hadd⟩ := bind_eq_ok_iff.mp hadd
    obtain ⟨updated, hfold, hadd⟩ := bind_eq_ok_iff.mp hadd
    cases hadd
    unfold TxMemPool.exists at hnew
    rw [Bool.not_eq_true, Option.isSome_eq_false_iff, Option.isNone_iff_eq_none] at hnew
    have hsame : SameEntries pool.entries updated :=
      sameEntries_of_update (fun hedit => (MempoolEntry.add_descendant_eq_ok hedit).1) collect_ancestors_nodup hfold
    exact .inr ⟨hnew, new, updated, hsame, (add_parents_eq_ok hparents).1, rfl, rfl, rfl⟩

theorem TxMemPool.remove_entry_cases {pool after : TxMemPool} {txid : Txid} {removed : Option MempoolEntry}
    (hremove : pool.remove_entry txid = .ok (after, removed)) :
    (pool.entries.lookup txid = none ∧ after = pool) ∨
      ∃ entry, pool.entries.lookup txid = some entry ∧ SameEntries (pool.entries.erase txid) after.entries ∧
        after.spenders = entry.tx.vin.foldl (fun spenders input => spenders.erase input.prevout) pool.spenders ∧
        after.total_fee = wrap_i64 (pool.total_fee - entry.fee) := by
  unfold TxMemPool.remove_entry at hremove
  cases hlookup : pool.entries.lookup txid with
  | none =>
    rw [hlookup] at hremove
    cases hremove
    exact .inl ⟨rfl, rfl⟩
  | some entry =>
    rw [hlookup] at hremove
    obtain ⟨updated, hfold, hremove⟩ := bind_eq_ok_iff.mp hremove
    cases hremove
    exact .inr ⟨entry, rfl, sameEntries_of_update MempoolEntry.remove_descendant_restated collect_ancestors_nodup hfold,
      rfl, rfl⟩

theorem Indexed.of_spenders {pool : TxMemPool}
    (hspenders : ∀ {outpoint : OutPoint} {txid : Txid}, pool.spenders.lookup outpoint = some txid ↔
      ∃ entry, pool.entries.lookup txid = some entry ∧ SpendsOutPoint entry.tx outpoint)
    (htotal : pool.total_fee = wrap_i64 pool.fee_sum) : Indexed pool where
  exclusive := by
    intro txid other entry found outpoint hentry hfound hspends hother
    have hfirst := hspenders.mpr ⟨entry, hentry, hspends⟩
    have hsecond := hspenders.mpr ⟨found, hfound, hother⟩
    rw [hfirst] at hsecond
    cases hsecond
    rfl
  spenders := hspenders
  total_fee := htotal

theorem SameEntries.spends_iff {left right : HashMap Txid MempoolEntry} (hsame : SameEntries left right) {txid : Txid}
    {outpoint : OutPoint} :
    (∃ entry, right.lookup txid = some entry ∧ SpendsOutPoint entry.tx outpoint) ↔
      ∃ entry, left.lookup txid = some entry ∧ SpendsOutPoint entry.tx outpoint := by
  have hrel := hsame txid
  generalize left.lookup txid = old at hrel ⊢
  generalize right.lookup txid = new at hrel ⊢
  cases hrel with
  | none => exact Iff.rfl
  | some hrestated => simp [hrestated.tx]

theorem Indexed.add_unchecked {pool after : TxMemPool} (hindexed : Indexed pool) {entry : MempoolEntry}
    (hfree : ∀ {txid : Txid} {found : MempoolEntry} {outpoint : OutPoint}, pool.entries.lookup txid = some found →
      SpendsOutPoint found.tx outpoint → SpendsOutPoint entry.tx outpoint → txid = entry.txid) {added : Bool}
    (hadd : pool.add_unchecked entry = .ok (after, added)) : Indexed after := by
  obtain rfl | ⟨hnew, new, updated, hsame, htx, hentries, hspenders, htotal⟩ := TxMemPool.add_unchecked_cases hadd
  · exact hindexed
  apply Indexed.of_spenders
  · intro outpoint txid
    rw [hspenders, hentries, lookup_insert_inputs]
    by_cases hself : txid = entry.txid
    · subst hself
      rw [AList.lookup_insert]
      constructor
      · intro hlisted
        split at hlisted
        · next hspends => exact ⟨new, rfl, htx ▸ hspends⟩
        · obtain ⟨old, hold, _⟩ := hindexed.spenders.mp hlisted
          rw [hnew] at hold
          cases hold
      · rintro ⟨_, ⟨⟩, hspends⟩
        rw [if_pos (htx ▸ hspends)]
    · rw [AList.lookup_insert_ne hself, hsame.spends_iff]
      constructor
      · intro hlisted
        split at hlisted
        · cases hlisted
          exact absurd rfl hself
        · exact hindexed.spenders.mp hlisted
      · rintro ⟨old, hold, hspends⟩
        rw [if_neg fun hboth => hself (hfree hold hspends hboth)]
        exact hindexed.spenders.mpr ⟨old, hold, hspends⟩
  · rw [htotal, hindexed.total_fee, wrap_i64_add, fee_sum_eq_package, fee_sum_eq_package, hentries,
      package_insert_new hnew hsame trivial fun _ _ => Iff.rfl, add_comm]
    rfl

/-- The pool has no entries but those of another one. -/
def Shrunk (pool after : TxMemPool) : Prop :=
  ∀ (txid : Txid) (new : MempoolEntry), after.entries.lookup txid = some new →
    ∃ old, pool.entries.lookup txid = some old ∧ new.tx = old.tx

theorem Shrunk.refl (pool : TxMemPool) : Shrunk pool pool := fun _ new hnew => ⟨new, hnew, rfl⟩

theorem Shrunk.trans {pool middle after : TxMemPool} (hfirst : Shrunk pool middle) (hsecond : Shrunk middle after) :
    Shrunk pool after := by
  intro txid new hnew
  obtain ⟨half, hhalf, htx⟩ := hsecond txid new hnew
  obtain ⟨old, hold, htx'⟩ := hfirst txid half hhalf
  exact ⟨old, hold, htx.trans htx'⟩

theorem Shrunk.gone {pool after : TxMemPool} (hshrunk : Shrunk pool after) {txid : Txid}
    (hnone : pool.entries.lookup txid = none) : after.entries.lookup txid = none := by
  cases hlookup : after.entries.lookup txid with
  | none => rfl
  | some new =>
    obtain ⟨old, hold, _⟩ := hshrunk txid new hlookup
    rw [hnone] at hold
    cases hold

theorem Indexed.remove_entry {pool after : TxMemPool} (hindexed : Indexed pool) {txid : Txid}
    {removed : Option MempoolEntry} (hremove : pool.remove_entry txid = .ok (after, removed)) :
    Indexed after ∧ Shrunk pool after ∧ after.entries.lookup txid = none := by
  obtain ⟨hnone, rfl⟩ | ⟨entry, hentry, hsame, hspenders, htotal⟩ := TxMemPool.remove_entry_cases hremove
  · exact ⟨hindexed, .refl _, hnone⟩
  have hgone : after.entries.lookup txid = none := by
    have hrel := hsame txid
    rw [AList.lookup_erase] at hrel
    generalize after.entries.lookup txid = new at hrel ⊢
    cases hrel
    rfl
  have hleft : Left pool.entries after.entries ([] ++ [txid]) := ((Left.refl pool.entries).erase txid).trans hsame
  refine ⟨?_, ?_, hgone⟩
  · apply Indexed.of_spenders
    · intro outpoint other
      rw [hspenders, lookup_erase_inputs]
      by_cases hself : other = txid
      · subst hself
        rw [hgone]
        constructor
        · intro hlisted
          split at hlisted
          · cases hlisted
          · next hnot =>
            obtain ⟨found, hfound, hspends⟩ := hindexed.spenders.mp hlisted
            rw [hentry] at hfound
            cases hfound
            exact absurd hspends hnot
        · rintro ⟨_, ⟨⟩, _⟩
      · rw [hsame.spends_iff, AList.lookup_erase_ne hself, ← hindexed.spenders]
        split
        · next hspends =>
          have hlisted := hindexed.spenders.mpr ⟨entry, hentry, hspends⟩
          rw [hlisted]
          exact ⟨nofun, fun heq => absurd (Option.some.inj heq).symm hself⟩
        · exact Iff.rfl
    · have hwhole : package pool.entries (fun _ => True) =
          package pool.entries fun other => other ∉ [] ∧ True := total_congr (fun _ _ => by simp) fun _ _ _ => rfl
      rw [htotal, hindexed.total_fee, wrap_i64_sub, fee_sum_eq_package, fee_sum_eq_package, hleft.package, hwhole,
        package_done_append hentry List.not_mem_nil trivial]
      exact congrArg wrap_i64 (add_sub_cancel_left _ _)
  · intro other new hnew
    obtain ⟨_, old, hold, hrestated⟩ := hleft.lookup_eq_some hnew
    exact ⟨old, hold, hrestated.tx⟩

theorem Indexed.remove_entries {txids : List Txid} : ∀ {pool after : TxMemPool} {removed : List Transaction},
    Indexed pool → pool.remove_entries txids = .ok (after, removed) →
      Indexed after ∧ Shrunk pool after ∧ ∀ txid ∈ txids, after.entries.lookup txid = none := by
  induction txids with
  | nil =>
    intro pool after removed hindexed hremove
    cases hremove
    exact ⟨hindexed, .refl _, nofun⟩
  | cons txid rest ih =>
    intro pool after removed hindexed hremove
    unfold TxMemPool.remove_entries at hremove
    obtain ⟨⟨middle, first⟩, hfirst, hremove⟩ := bind_eq_ok_iff.mp hremove
    obtain ⟨⟨last, others⟩, hrest, hremove⟩ := bind_eq_ok_iff.mp hremove
    cases hremove
    obtain ⟨hmiddle, hshrunk, hgone⟩ := hindexed.remove_entry hfirst
    obtain ⟨hlast, hshrunk', hothers⟩ := ih hmiddle hrest
    refine ⟨hlast, hshrunk.trans hshrunk', ?_⟩
    intro other hmem
    obtain rfl | hmem := List.mem_cons.mp hmem
    · exact hshrunk'.gone hgone
    · exact hothers other hmem

theorem Indexed.remove_recursive {pool after : TxMemPool} (hindexed : Indexed pool) {txid : Txid}
    {removed : List Transaction} (hremove : pool.remove_recursive txid = .ok (after, removed)) :
    Indexed after ∧ Shrunk pool after ∧ after.entries.lookup txid = none := by
  unfold TxMemPool.remove_recursive at hremove
  split at hremove
  · obtain ⟨hafter, hshrunk, hgone⟩ := hindexed.remove_entries hremove
    exact ⟨hafter, hshrunk, hgone txid List.mem_cons_self⟩
  · next habsent =>
    cases hremove
    refine ⟨hindexed, .refl _, ?_⟩
    unfold TxMemPool.exists at habsent
    rwa [Bool.not_eq_true, Option.isSome_eq_false_iff, Option.isNone_iff_eq_none] at habsent

theorem Indexed.remove_all_recursive {txids : List Txid} : ∀ {pool after : TxMemPool},
    Indexed pool → pool.remove_all_recursive txids = .ok after →
      Indexed after ∧ Shrunk pool after ∧ ∀ txid ∈ txids, after.entries.lookup txid = none := by
  induction txids with
  | nil =>
    intro pool after hindexed hremove
    cases hremove
    exact ⟨hindexed, .refl _, nofun⟩
  | cons txid rest ih =>
    intro pool after hindexed hremove
    unfold TxMemPool.remove_all_recursive at hremove
    obtain ⟨⟨middle, first⟩, hfirst, hrest⟩ := bind_eq_ok_iff.mp hremove
    obtain ⟨hmiddle, hshrunk, hgone⟩ := hindexed.remove_recursive hfirst
    obtain ⟨hlast, hshrunk', hothers⟩ := ih hmiddle hrest
    refine ⟨hlast, hshrunk.trans hshrunk', ?_⟩
    intro other hmem
    obtain rfl | hmem := List.mem_cons.mp hmem
    · exact hshrunk'.gone hgone
    · exact hothers other hmem

theorem Indexed.trim_to_size {orders : List (List Txid)} : ∀ {pool after : TxMemPool}, Indexed pool →
    pool.trim_to_size orders = .ok after → Indexed after := by
  induction orders with
  | nil =>
    intro pool after hindexed htrim
    cases htrim
    exact hindexed
  | cons order orders ih =>
    intro pool after hindexed htrim
    unfold TxMemPool.trim_to_size at htrim
    split at htrim
    · cases htrim
      exact hindexed
    · obtain ⟨worst, _, htrim⟩ := bind_eq_ok_iff.mp htrim
      cases worst with
      | none =>
        cases htrim
        exact hindexed
      | some worst =>
        obtain ⟨⟨middle, removed⟩, hremove, htrim⟩ := bind_eq_ok_iff.mp htrim
        exact ih (hindexed.remove_recursive hremove).1 htrim

theorem Indexed.replace {pool after : TxMemPool} (hindexed : Indexed pool) {entry : MempoolEntry}
    {evict_txids : List Txid} (hcovers : Covers pool entry evict_txids) {added : Bool}
    (hreplace : pool.replace entry evict_txids = .ok (after, added)) : Indexed after := by
  unfold TxMemPool.replace at hreplace
  obtain ⟨middle, hremove, hadd⟩ := bind_eq_ok_iff.mp hreplace
  obtain ⟨hmiddle, hshrunk, hgone⟩ := hindexed.remove_all_recursive hremove
  apply hmiddle.add_unchecked _ hadd
  intro txid found outpoint hfound hspends hentry
  by_contra hother
  obtain ⟨old, hold, htx⟩ := hshrunk txid found hfound
  rw [hgone txid (hcovers txid old outpoint hold (htx ▸ hspends) hentry hother)] at hfound
  cases hfound

theorem mem_direct_conflicts {pool : TxMemPool} {inputs : List TxIn} {conflict : Txid} : ∀ {conflicts : List Txid},
    (conflict ∈ inputs.foldl (fun conflicts input =>
      match pool.spenders.lookup input.prevout with
      | some conflict => if conflict ∈ conflicts then conflicts else conflicts ++ [conflict]
      | none => conflicts) conflicts) ↔
      conflict ∈ conflicts ∨ ∃ input ∈ inputs, pool.spenders.lookup input.prevout = some conflict := by
  induction inputs with
  | nil =>
    intro conflicts
    rw [List.foldl_nil]
    exact ⟨.inl, fun hor => hor.resolve_right (by rintro ⟨_, ⟨⟩, _⟩)⟩
  | cons input rest ih =>
    intro conflicts
    rw [List.foldl_cons, ih]
    simp only [List.mem_cons, exists_eq_or_imp]
    cases hspender : pool.spenders.lookup input.prevout with
    | none => simp
    | some spender =>
      dsimp only
      split
      · next hmem =>
        constructor
        · exact Or.imp_right .inr
        · rintro (hold | heq | hrest)
          · exact .inl hold
          · cases heq
            exact .inl hmem
          · exact .inr hrest
      · rw [List.mem_append, List.mem_singleton, Option.some.injEq, or_assoc, eq_comm (a := conflict)]

theorem mem_all_evicted {pool : TxMemPool} {conflicts : List Txid} {txid : Txid} : ∀ {evicted : List Txid},
    txid ∈ evicted ∨ txid ∈ conflicts →
      txid ∈ conflicts.foldl (fun evicted conflict =>
        (collect_descendants_locked pool.entries pool.spenders conflict).foldl
          (fun evicted descendant => if descendant ∈ evicted then evicted else evicted ++ [descendant])
          (evicted ++ [conflict])) evicted := by
  have hkeep : ∀ (descendants evicted : List Txid), txid ∈ evicted →
      txid ∈ descendants.foldl
        (fun evicted descendant => if descendant ∈ evicted then evicted else evicted ++ [descendant]) evicted := by
    intro descendants
    induction descendants with
    | nil => exact fun _ hmem => hmem
    | cons descendant rest ih =>
      intro evicted hmem
      rw [List.foldl_cons]
      apply ih
      split
      · exact hmem
      · exact List.mem_append_left _ hmem
  induction conflicts with
  | nil => exact fun hor => hor.resolve_right List.not_mem_nil
  | cons conflict rest ih =>
    intro evicted hor
    rw [List.foldl_cons]
    apply ih
    obtain hold | hmem := hor
    · exact .inl (hkeep _ _ (List.mem_append_left _ hold))
    · obtain rfl | hmem := List.mem_cons.mp hmem
      · exact .inl (hkeep _ _ (List.mem_append_right _ (List.mem_singleton_self _)))
      · exact .inr hmem

theorem check_rbf_covers {pool : TxMemPool} (hindexed : Indexed pool) {entry : MempoolEntry} {evicted : List Txid}
    (hcheck : pool.check_rbf entry = .ok evicted) : Covers pool entry evicted := by
  intro txid found outpoint hfound hspends hentry _
  obtain ⟨input, hinput, rfl⟩ := hentry
  have hconflict : txid ∈ pool.direct_conflicts entry.tx :=
    mem_direct_conflicts.mpr (.inr ⟨input, hinput, hindexed.spenders.mpr ⟨found, hfound, hspends⟩⟩)
  unfold TxMemPool.check_rbf at hcheck
  dsimp only at hcheck
  split at hcheck
  · next hempty =>
    rw [List.isEmpty_iff.mp hempty] at hconflict
    cases hconflict
  · obtain ⟨_, _, hcheck⟩ := bind_eq_ok_iff.mp hcheck
    obtain ⟨_, _, hcheck⟩ := bind_eq_ok_iff.mp hcheck
    obtain ⟨_, _, hcheck⟩ := bind_eq_ok_iff.mp hcheck
    obtain ⟨_, _, hcheck⟩ := bind_eq_ok_iff.mp hcheck
    cases hcheck
    exact mem_all_evicted (.inr hconflict)

theorem Indexed.accept_to_mempool {pool after : TxMemPool} (hindexed : Indexed pool) {tx : Transaction} {fee : Amount}
    {vsize : UInt32} {height : Int} (haccept : mempool.accept_to_mempool pool tx fee vsize height = .ok after) :
    Indexed after := by
  unfold mempool.accept_to_mempool at haccept
  obtain ⟨⟨entry, evicted⟩, hcheck, haccept⟩ := bind_eq_ok_iff.mp haccept
  obtain ⟨⟨committed, added⟩, hcommit, haccept⟩ := bind_eq_ok_iff.mp haccept
  cases haccept
  obtain ⟨_, _, hrbf, _⟩ := check_candidate_eq_ok hcheck
  have hcovers := check_rbf_covers hindexed hrbf
  unfold TxMemPool.commit at hcommit
  split at hcommit
  · next hempty =>
    -- without evictions, the addition is a replacement of nothing
    rw [List.isEmpty_iff.mp hempty] at hcovers
    exact @Indexed.replace pool _ hindexed entry [] hcovers _ hcommit
  · exact hindexed.replace hcovers hcommit

theorem map_fst_eq_ok {A B : Type} {x : Result (A × B)} {a : A} (hmap : Prod.fst <$> x = .ok a) :
    ∃ b, x = .ok (a, b) := by
  cases x with
  | error _ => cases hmap
  | ok pair =>
    cases hmap
    exact ⟨pair.2, rfl⟩

theorem Indexed.apply {pool after : TxMemPool} (hindexed : Indexed pool) {call : Call} (hcovering : call.Covering pool)
    (happly : call.apply pool = .ok after) : Indexed after := by
  cases call with
  | accept_to_mempool tx fee vsize height => exact hindexed.accept_to_mempool happly
  | replace entry evict_txids =>
    obtain ⟨added, hreplace⟩ := map_fst_eq_ok happly
    exact hindexed.replace hcovering hreplace
  | remove_entry txid =>
    obtain ⟨removed, hremove⟩ := map_fst_eq_ok happly
    exact (hindexed.remove_entry hremove).1
  | remove_recursive txid =>
    obtain ⟨removed, hremove⟩ := map_fst_eq_ok happly
    exact (hindexed.remove_recursive hremove).1
  | remove_for_block txids =>
    obtain ⟨⟨removed, txs⟩, hremove, happly⟩ := bind_eq_ok_iff.mp happly
    cases happly
    exact (hindexed.remove_entries hremove).1
  | trim_to_size orders => exact hindexed.trim_to_size happly
  | expire_old now expiry_hours order =>
    obtain ⟨count, hexpire⟩ := map_fst_eq_ok happly
    unfold TxMemPool.expire_old at hexpire
    obtain ⟨age, _, hexpire⟩ := bind_eq_ok_iff.mp hexpire
    obtain ⟨removed, hremove, hexpire⟩ := bind_eq_ok_iff.mp hexpire
    cases hexpire
    exact (hindexed.remove_all_recursive hremove).1
  | clear =>
    cases happly
    exact ⟨nofun, ⟨nofun, by rintro ⟨_, ⟨⟩, _⟩⟩, rfl⟩

theorem Reached.indexed {pool : TxMemPool} (hpool : Reached (fun pool call => call.Covering pool) pool) : Indexed pool := by
  induction hpool with
  | empty min_relay_fee max_size => exact ⟨nofun, ⟨nofun, by rintro ⟨_, ⟨⟩, _⟩⟩, rfl⟩
  | step _ hcovering happly ih => exact ih.apply hcovering happly

/-- In every run whose replacements evict what they conflict with, the index and the
    fee total are exact in every state. -/
theorem reached_indexed {pool : TxMemPool} (hpool : Reached (fun pool call => call.Covering pool) pool) :
    Indexed pool :=
  hpool.indexed

/-- A transaction that spends what `two_outputs` spends. -/
def rival_spend : Transaction :=
  .new crypto.sha256d 2 [⟨⟨7, 0⟩, .new, SEQUENCE_FINAL, .new⟩] [⟨100000, ⟨[0x51]⟩⟩] 0

/-- The entry that it would be in the pool. -/
def rival_entry : MempoolEntry :=
  { tx := rival_spend, fee := 5000, vsize := 100, time := 0, entry_height := 1, spends_coinbase := false
    sig_op_cost := 0, fee_rate := ⟨50000⟩, ancestor_count := 1, ancestor_size := 100, ancestor_fee := 5000
    descendant_count := 1, descendant_size := 100, descendant_fee := 5000 }

/-- After a transaction is accepted and replaced by one that spends the same, the
    index lists the replacement. -/
theorem reached_indexed_replacement :
    ∃ pool, Reached (fun pool call => call.Covering pool) pool ∧
      pool.spenders.lookup ⟨7, 0⟩ = some rival_spend.txid ∧ Indexed pool := by
  have hrun : (do
      let pool ← accept_to_mempool .new two_outputs 1000 100 1
      let pool ← accept_to_mempool pool rival_spend 5000 100 1
      pure (pool.spenders.lookup ⟨7, 0⟩) : Result (Option Txid)).toOption = some (some rival_spend.txid) := by
    decide +kernel
  obtain ⟨first, hfirst, hrun⟩ := bind_eq_ok_iff.mp (toOption_eq_some hrun)
  obtain ⟨pool, hsecond, hrun⟩ := bind_eq_ok_iff.mp hrun
  have hfirst : (Call.accept_to_mempool two_outputs 1000 100 1).apply .new = .ok first := hfirst
  have hsecond : (Call.accept_to_mempool rival_spend 5000 100 1).apply first = .ok pool := hsecond
  have hreached : Reached (fun pool call => call.Covering pool) pool := by
    refine .step (.step (.empty DEFAULT_MIN_RELAY_TX_FEE DEFAULT_MAX_MEMPOOL_SIZE) ?_ hfirst) ?_ hsecond
    · exact trivial
    · exact trivial
  exact ⟨pool, hreached, Except.ok.inj hrun, reached_indexed hreached⟩

theorem replace_without_evictions :
    ∃ pool, Reached (fun _ _ => True) pool ∧ ∃ txid other entry found outpoint,
      pool.entries.lookup txid = some entry ∧ pool.entries.lookup other = some found ∧
      SpendsOutPoint entry.tx outpoint ∧ SpendsOutPoint found.tx outpoint ∧ txid ≠ other := by
  have hrun : (do
      let pool ← accept_to_mempool .new two_outputs 1000 100 1
      let pool ← (Call.replace rival_entry []).apply pool
      pure ((pool.entries.lookup two_outputs.txid).map MempoolEntry.tx,
        (pool.entries.lookup rival_spend.txid).map MempoolEntry.tx) :
        Result (Option Transaction × Option Transaction)).toOption = some (some two_outputs, some rival_spend) := by
    decide +kernel
  obtain ⟨first, hfirst, hrun⟩ := bind_eq_ok_iff.mp (toOption_eq_some hrun)
  obtain ⟨pool, hsecond, hrun⟩ := bind_eq_ok_iff.mp hrun
  obtain ⟨hold, hrival⟩ := Prod.mk.inj (Except.ok.inj hrun)
  obtain ⟨entry, hentry, htx⟩ := Option.map_eq_some_iff.mp hold
  obtain ⟨found, hfound, htx'⟩ := Option.map_eq_some_iff.mp hrival
  have hfirst : (Call.accept_to_mempool two_outputs 1000 100 1).apply .new = .ok first := hfirst
  have hreached : Reached (fun _ _ => True) pool :=
    .step (.step (.empty DEFAULT_MIN_RELAY_TX_FEE DEFAULT_MAX_MEMPOOL_SIZE) trivial hfirst) trivial hsecond
  refine ⟨pool, hreached, two_outputs.txid, rival_spend.txid, entry, found, ⟨7, 0⟩, hentry, hfound, ?_, ?_,
    by decide +kernel⟩
  · rw [htx]
    decide +kernel
  · rw [htx']
    decide +kernel

/-- A transaction that has nothing to do with the others. -/
def other_spend : Transaction :=
  .new crypto.sha256d 2 [⟨⟨8, 0⟩, .new, SEQUENCE_FINAL, .new⟩] [⟨100000, ⟨[0x51]⟩⟩] 0

theorem total_fee_wraps :
    ∃ pool, Reached (fun pool call => call.Covering pool) pool ∧ pool.total_fee ≠ pool.fee_sum := by
  have hrun : (do
      let pool ← accept_to_mempool .new two_outputs (2 ^ 63 - 1) 0 1
      let pool ← accept_to_mempool pool other_spend (2 ^ 63 - 1) 0 1
      pure (pool.total_fee, pool.fee_sum) : Result (Int × Int)).toOption = some (-2, 2 ^ 64 - 2) := by
    decide +kernel
  obtain ⟨first, hfirst, hrun⟩ := bind_eq_ok_iff.mp (toOption_eq_some hrun)
  obtain ⟨pool, hsecond, hrun⟩ := bind_eq_ok_iff.mp hrun
  obtain ⟨htotal, hsum⟩ := Prod.mk.inj (Except.ok.inj hrun)
  have hfirst : (Call.accept_to_mempool two_outputs (2 ^ 63 - 1) 0 1).apply .new = .ok first := hfirst
  have hsecond : (Call.accept_to_mempool other_spend (2 ^ 63 - 1) 0 1).apply first = .ok pool := hsecond
  refine ⟨pool, .step (.step (.empty DEFAULT_MIN_RELAY_TX_FEE DEFAULT_MAX_MEMPOOL_SIZE) ?_ hfirst) ?_ hsecond, ?_⟩
  · exact trivial
  · exact trivial
  · rw [htotal, hsum]
    decide

/-- Neither the index nor the fee total is exact in every run. -/
theorem reached_indexed_fails :
    (∃ pool, Reached (fun _ _ => True) pool ∧ ∃ txid other entry found outpoint,
      pool.entries.lookup txid = some entry ∧ pool.entries.lookup other = some found ∧
      SpendsOutPoint entry.tx outpoint ∧ SpendsOutPoint found.tx outpoint ∧ txid ≠ other) ∧
    ∃ pool, Reached (fun pool call => call.Covering pool) pool ∧ pool.total_fee ≠ pool.fee_sum :=
  ⟨replace_without_evictions, total_fee_wraps⟩

end qubitcoin.mempool
