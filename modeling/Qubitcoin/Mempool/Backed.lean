import Qubitcoin.Mempool.Evicted

/-! What the transactions of the pool spend: coins, and outputs of other entries. Removals and
    additions keep the pool so. -/

open qubitcoin primitives script transaction coins Relation

namespace qubitcoin.mempool

/-- The outpoint is an output of an entry. -/
def Offers (entries : HashMap Txid MempoolEntry) (outpoint : OutPoint) : Prop :=
  ∃ parent, entries.lookup outpoint.hash = some parent ∧ outpoint.n.toNat < parent.tx.vout.length

/-- The outpoint is a coin, or an output of another entry than the given one. -/
def Sourced (coins : CoinsMap) (entries : HashMap Txid MempoolEntry) (txid : Txid) (outpoint : OutPoint) : Prop :=
  (coins outpoint).isSome = true ∨ (outpoint.hash ≠ txid ∧ Offers entries outpoint)

/-- Every input of every entry has its source. -/
def Backed (coins : CoinsMap) (entries : HashMap Txid MempoolEntry) : Prop :=
  ∀ (txid : Txid) (entry : MempoolEntry), entries.lookup txid = some entry →
    ∀ input ∈ entry.tx.vin, Sourced coins entries txid input.prevout

section

variable {entries current : HashMap Txid MempoolEntry} {done : List Txid} {outpoint : OutPoint}

theorem Offers.left (hoffers : Offers entries outpoint) (hleft : Left entries current done)
    (hkept : outpoint.hash ∉ done) : Offers current outpoint := by
  obtain ⟨parent, hparent, houtput⟩ := hoffers
  have hrel := hleft.kept outpoint.hash hkept
  rw [hparent] at hrel
  generalize hnew : current.lookup outpoint.hash = new at hrel
  cases hrel with
  | some hrestated => exact ⟨_, hnew, hrestated.tx ▸ houtput⟩

theorem Offers.same (hoffers : Offers entries outpoint) (hsame : SameEntries entries current) :
    Offers current outpoint := hoffers.left ((Left.refl entries).trans hsame) List.not_mem_nil

theorem Backed.mono {coins others : CoinsMap} (hbacked : Backed coins entries)
    (hkept : ∀ (txid : Txid) (entry : MempoolEntry), entries.lookup txid = some entry → ∀ input ∈ entry.tx.vin,
      (coins input.prevout).isSome = true → (others input.prevout).isSome = true) : Backed others entries :=
  fun txid entry hentry input hinput => (hbacked txid entry hentry input hinput).imp_left (hkept txid entry hentry input hinput)

end

variable {coins : CoinsMap} {pool after : TxMemPool}

theorem Backed.remove_recursive (hbacked : Backed coins pool.entries) (hindexed : Indexed pool) {txid : Txid}
    {removed : List Transaction} (hremove : pool.remove_recursive txid = .ok (after, removed)) :
    Backed coins after.entries := by
  by_cases hsome : pool.exists txid = true
  · obtain ⟨hleft, _, _⟩ := hindexed.remove_recursive_left hsome hremove
    intro child below hbelow input hinput
    obtain ⟨_, old, hold, hrestated⟩ := hleft.lookup_eq_some hbelow
    obtain hcoin | ⟨hother, hoffers⟩ := hbacked child old hold input (hrestated.tx ▸ hinput)
    · exact .inl hcoin
    · refine .inr ⟨hother, hoffers.left hleft fun hgone => ?_⟩
      obtain ⟨above, habove, houtput⟩ := hoffers
      have hreach := ((hindexed.collect_descendants txid).2 input.prevout.hash).mp hgone
      exact hindexed.remaining_spends_nothing hleft hreach habove hbelow ⟨input, hinput, rfl, houtput⟩
  · unfold TxMemPool.remove_recursive at hremove
    rw [if_neg hsome] at hremove
    cases hremove
    exact hbacked

theorem Backed.remove_all_recursive {txids : List Txid} : ∀ {pool : TxMemPool}, Backed coins pool.entries →
    Indexed pool → pool.remove_all_recursive txids = .ok after → Backed coins after.entries := by
  induction txids with
  | nil =>
    intro pool hbacked _ hremove
    cases hremove
    exact hbacked
  | cons first rest ih =>
    intro pool hbacked hindexed hremove
    unfold TxMemPool.remove_all_recursive at hremove
    obtain ⟨⟨middle, removed⟩, hfirst, hrest⟩ := bind_eq_ok_iff.mp hremove
    exact ih (hbacked.remove_recursive hindexed hfirst) (hindexed.remove_recursive hfirst).1 hrest

theorem Indexed.check_rbf_spares (hindexed : Indexed pool) {entry : MempoolEntry} {evicted : List Txid}
    (hcheck : pool.check_rbf entry = .ok evicted) {input : TxIn} (hinput : input ∈ entry.tx.vin) {start : Txid}
    (hstart : start ∈ evicted) : ¬ ReflTransGen (SpendsOutput pool.entries) start input.prevout.hash := by
  unfold TxMemPool.check_rbf at hcheck
  dsimp only at hcheck
  split at hcheck
  · cases hcheck
    cases hstart
  · obtain ⟨_, _, hcheck⟩ := bind_eq_ok_iff.mp hcheck
    obtain ⟨_, hspends, hcheck⟩ := bind_eq_ok_iff.mp hcheck
    obtain ⟨_, _, hcheck⟩ := bind_eq_ok_iff.mp hcheck
    obtain ⟨_, _, hcheck⟩ := bind_eq_ok_iff.mp hcheck
    cases hcheck
    intro hreach
    obtain ⟨conflict, hconflict, habove⟩ := hindexed.mem_all_evicted.mp hstart
    exact check_spends_conflicting_eq_ok.mp hspends input hinput
      (hindexed.mem_all_evicted.mpr ⟨conflict, hconflict, habove.trans hreach⟩)

theorem Backed.add_unchecked (hbacked : Backed coins pool.entries) {entry : MempoolEntry} {added : Bool}
    (hadd : pool.add_unchecked entry = .ok (after, added))
    (hinputs : ∀ input ∈ entry.tx.vin, Sourced coins pool.entries entry.txid input.prevout) :
    Backed coins after.entries := by
  obtain rfl | ⟨hnew, new, updated, hsame, htx, hentries, _⟩ := TxMemPool.add_unchecked_cases hadd
  · exact hbacked
  have hstays : ∀ {outpoint : OutPoint}, Offers pool.entries outpoint → Offers after.entries outpoint := by
    intro outpoint hoffers
    have hother : outpoint.hash ≠ entry.txid := by
      obtain ⟨parent, hparent, _⟩ := hoffers
      intro heq
      rw [heq, hnew] at hparent
      cases hparent
    obtain ⟨parent, hparent, houtput⟩ := hoffers.same hsame
    refine ⟨parent, ?_, houtput⟩
    rw [hentries, AList.lookup_insert_ne hother]
    exact hparent
  intro txid found hfound input hinput
  rw [hentries] at hfound
  by_cases hown : txid = entry.txid
  · subst hown
    rw [AList.lookup_insert] at hfound
    cases hfound
    exact (hinputs input (htx ▸ hinput)).imp_right fun hsource => ⟨hsource.1, hstays hsource.2⟩
  · rw [AList.lookup_insert_ne hown] at hfound
    obtain ⟨old, hold, hrestated⟩ := hsame.lookup_eq_some hfound
    exact (hbacked txid old hold input (hrestated.tx ▸ hinput)).imp_right fun hsource => ⟨hsource.1, hstays hsource.2⟩

/-- A transaction whose inputs are coins or outputs of entries is accepted into a pool that stays
    backed, and has no new entry but that transaction. -/
theorem Backed.accept_to_mempool (hbacked : Backed coins pool.entries) (hindexed : Indexed pool) {tx : Transaction}
    {fee : Amount} {vsize : UInt32} {height : Int}
    (haccept : mempool.accept_to_mempool pool tx fee vsize height = .ok after)
    (hinputs : ∀ input ∈ tx.vin, (coins input.prevout).isSome = true ∨ Offers pool.entries input.prevout) :
    Backed coins after.entries ∧ ∀ txid entry, after.entries.lookup txid = some entry →
      (txid = tx.txid ∧ entry.tx = tx) ∨ ∃ old, pool.entries.lookup txid = some old ∧ entry.tx = old.tx := by
  unfold mempool.accept_to_mempool at haccept
  obtain ⟨⟨entry, evicted⟩, hcheck, haccept⟩ := bind_eq_ok_iff.mp haccept
  obtain ⟨⟨committed, added⟩, hcommit, haccept⟩ := bind_eq_ok_iff.mp haccept
  cases haccept
  obtain ⟨hexists, hentry, hrbf, _⟩ := check_candidate_eq_ok hcheck
  obtain ⟨_, rfl, _, _⟩ := MempoolEntry.new_eq_ok hentry
  have hnew : pool.entries.lookup entry.tx.txid = none := by
    unfold TxMemPool.exists at hexists
    rwa [Option.isSome_eq_false_iff, Option.isNone_iff_eq_none] at hexists
  -- Without evictions, the addition is a replacement of nothing.
  have hreplace : pool.replace entry evicted = .ok (after, added) := by
    unfold TxMemPool.commit at hcommit
    split at hcommit
    · next hempty =>
      rw [List.isEmpty_iff.mp hempty]
      exact hcommit
    · exact hcommit
  unfold TxMemPool.replace at hreplace
  obtain ⟨middle, hremove, hadd⟩ := bind_eq_ok_iff.mp hreplace
  obtain ⟨done, hleft, hdone⟩ := hindexed.remove_all_recursive_left hremove
  constructor
  · refine (hbacked.remove_all_recursive hindexed hremove).add_unchecked hadd fun input hinput => ?_
    refine (hinputs input hinput).imp_right fun hoffers => ⟨?_, hoffers.left hleft fun hgone => ?_⟩
    · obtain ⟨parent, hparent, _⟩ := hoffers
      intro heq
      rw [heq, MempoolEntry.txid, hnew] at hparent
      cases hparent
    · obtain ⟨start, hstart, hreach⟩ := hdone input.prevout.hash hgone
      exact hindexed.check_rbf_spares hrbf hinput hstart hreach
  · intro txid found hfound
    have hold : ∀ {other : MempoolEntry}, middle.entries.lookup txid = some other →
        ∃ old, pool.entries.lookup txid = some old ∧ other.tx = old.tx := by
      intro other hother
      obtain ⟨_, old, hold, hrestated⟩ := hleft.lookup_eq_some hother
      exact ⟨old, hold, hrestated.tx⟩
    obtain rfl | ⟨_, new, updated, hsame, htx, hentries, _⟩ := TxMemPool.add_unchecked_cases hadd
    · exact .inr (hold hfound)
    · rw [hentries] at hfound
      by_cases hown : txid = entry.txid
      · subst hown
        rw [AList.lookup_insert] at hfound
        cases hfound
        exact .inl ⟨rfl, htx⟩
      · rw [AList.lookup_insert_ne hown] at hfound
        obtain ⟨other, hother, hrestated⟩ := hsame.lookup_eq_some hfound
        obtain ⟨old, hpool, htx_old⟩ := hold hother
        exact .inr ⟨old, hpool, hrestated.tx.trans htx_old⟩

end qubitcoin.mempool
