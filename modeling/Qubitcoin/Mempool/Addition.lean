import Qubitcoin.Mempool.Package

/-! Adding an entry keeps the statistics exact when the entry's parents have no ancestor in
    common and nothing in the pool spends the entry. -/

open qubitcoin primitives transaction Relation weight

namespace qubitcoin.mempool

/-- Neither the pool nor the transaction itself spends the transaction. -/
structure Unspent (entries : HashMap Txid MempoolEntry) (tx : Transaction) : Prop where
  childless : ∀ (child : Txid) (entry : MempoolEntry), entries.lookup child = some entry → ¬ Spends entry.tx tx.txid
  acyclic : ¬ Spends tx tx.txid

/-- Nothing spends the transaction, and no entry is above two of its inputs. -/
structure CleanAddition (entries : HashMap Txid MempoolEntry) (tx : Transaction) : Prop extends Unspent entries tx where
  separate : (parent_txids entries tx).Pairwise fun left right =>
    ∀ above, ReflTransGen (Up entries) left above → ¬ ReflTransGen (Up entries) right above

/-- The statistics of an entry that was not added yet. -/
structure Fresh (entry : MempoolEntry) : Prop where
  ancestors : entry.ancestors = entry.own
  descendants : entry.descendants = entry.own

theorem MempoolEntry.new_eq_ok {tx : Transaction} {fee : Amount} {vsize : UInt32} {time : UInt64} {entry_height : Int}
    {spends_coinbase : Bool} {sig_op_cost : UInt32} {entry : MempoolEntry}
    (hnew : MempoolEntry.new tx fee vsize time entry_height spends_coinbase sig_op_cost = .ok entry) :
    Fresh entry ∧ entry.tx = tx ∧ entry.vsize = vsize ∧ entry.fee = fee := by
  unfold MempoolEntry.new at hnew
  obtain ⟨fee_rate, _, hnew⟩ := bind_eq_ok_iff.mp hnew
  cases hnew
  exact ⟨⟨rfl, rfl⟩, rfl, rfl, rfl⟩

variable {entries updated : HashMap Txid MempoolEntry}

def ancestors_of (entries : HashMap Txid MempoolEntry) (txid : Txid) : Int × Int × Int :=
  match entries.lookup txid with
  | some entry => entry.ancestors
  | none => 0

theorem MempoolEntry.add_parent_eq_ok {entry parent new : MempoolEntry} (hadd : entry.add_parent parent = .ok new) :
    new.tx = entry.tx ∧ new.own = entry.own ∧ new.descendants = entry.descendants ∧
      new.ancestors = entry.ancestors + parent.ancestors := by
  unfold MempoolEntry.add_parent at hadd
  obtain ⟨count, hcount, hadd⟩ := bind_eq_ok_iff.mp hadd
  obtain ⟨size, hsize, hadd⟩ := bind_eq_ok_iff.mp hadd
  obtain ⟨fee, hfee, hadd⟩ := bind_eq_ok_iff.mp hadd
  cases hadd
  obtain ⟨rfl, _⟩ := checked_eq_ok.mp hcount
  obtain ⟨rfl, _⟩ := checked_eq_ok.mp hsize
  obtain ⟨rfl, _⟩ := checked_eq_ok.mp hfee
  exact ⟨rfl, rfl, rfl, rfl⟩

theorem add_parents_eq_ok {parents : List Txid} : ∀ {entry new : MempoolEntry},
    add_parents entries parents entry = .ok new →
      new.tx = entry.tx ∧ new.own = entry.own ∧ new.descendants = entry.descendants ∧
        new.ancestors = entry.ancestors + (parents.map (ancestors_of entries)).sum := by
  induction parents with
  | nil =>
    intro entry new hadd
    cases hadd
    exact ⟨rfl, rfl, rfl, (add_zero _).symm⟩
  | cons parent rest ih =>
    intro entry new hadd
    unfold add_parents at hadd
    cases hparent : entries.lookup parent with
    | none =>
      rw [hparent] at hadd
      obtain ⟨htx, hown, hdescendants, hancestors⟩ := ih hadd
      refine ⟨htx, hown, hdescendants, ?_⟩
      have hnone : ancestors_of entries parent = 0 := by rw [ancestors_of, hparent]
      rw [List.map_cons, List.sum_cons, hnone, zero_add, hancestors]
    | some found =>
      rw [hparent] at hadd
      obtain ⟨middle, hmiddle, hadd⟩ := bind_eq_ok_iff.mp hadd
      obtain ⟨htx, hown, hdescendants, hancestors⟩ := ih hadd
      obtain ⟨htx', hown', hdescendants', hancestors'⟩ := MempoolEntry.add_parent_eq_ok hmiddle
      have hsome : ancestors_of entries parent = found.ancestors := by rw [ancestors_of, hparent]
      refine ⟨htx.trans htx', hown.trans hown', hdescendants.trans hdescendants', ?_⟩
      rw [List.map_cons, List.sum_cons, hsome, hancestors, hancestors', add_assoc]

theorem TxMemPool.add_unchecked_eq_ok {pool after : TxMemPool} {entry : MempoolEntry} {added : Bool}
    (hadd : pool.add_unchecked entry = .ok (after, added)) :
    (pool.exists entry.txid = true ∧ after = pool) ∨
      (pool.entries.lookup entry.txid = none ∧ ∃ new updated,
        add_parents pool.entries (parent_txids pool.entries entry.tx) entry = .ok new ∧
        (collect_ancestors_from_entries pool.entries new).foldlM
          (update_entry (MempoolEntry.add_descendant new.vsize.toNat new.fee)) pool.entries = .ok updated ∧
        after.entries = updated.insert entry.txid new) := by
  unfold TxMemPool.add_unchecked at hadd
  dsimp only at hadd
  split at hadd
  · next hexists =>
    cases hadd
    exact .inl ⟨hexists, rfl⟩
  · next hnew =>
    obtain ⟨new, hparents, hadd⟩ := bind_eq_ok_iff.mp hadd
    obtain ⟨updated, hfold, hadd⟩ := bind_eq_ok_iff.mp hadd
    cases hadd
    refine .inr ⟨?_, new, updated, hparents, hfold, rfl⟩
    unfold TxMemPool.exists at hnew
    rwa [Bool.not_eq_true, Option.isSome_eq_false_iff, Option.isNone_iff_eq_none] at hnew

section

variable {k : Txid} {new : MempoolEntry}

theorem keys_insert (hsame : SameEntries entries updated) :
    (updated.insert k new).keys.toFinset = insert k entries.keys.toFinset := by
  rw [← hsame.keys]
  ext txid
  rw [List.mem_toFinset, Finset.mem_insert, List.mem_toFinset, ← AList.mem_keys, AList.mem_insert, AList.mem_keys]

theorem own_of_insert_ne (hsame : SameEntries entries updated) {txid : Txid} (hne : txid ≠ k) :
    own_of (updated.insert k new) txid = own_of entries txid := by
  rw [← hsame.own_of, own_of, own_of, AList.lookup_insert_ne hne]

theorem own_of_insert : own_of (updated.insert k new) k = new.own := by
  rw [own_of, AList.lookup_insert]

theorem package_insert_old (hnew : entries.lookup k = none) (hsame : SameEntries entries updated) {P Q : Txid → Prop}
    (hk : ¬ P k) (hP : ∀ txid, txid ≠ k → (P txid ↔ Q txid)) :
    package (updated.insert k new) P = package entries Q := by
  unfold package
  rw [keys_insert hsame, total_insert_neg hk]
  have hne : ∀ txid ∈ entries.keys.toFinset, txid ≠ k := by
    rintro txid hmem rfl
    rw [List.mem_toFinset, mem_keys_iff, hnew] at hmem
    cases hmem
  exact total_congr (fun txid hmem => hP txid (hne txid hmem)) fun txid hmem _ => own_of_insert_ne hsame (hne txid hmem)

theorem package_insert_new (hnew : entries.lookup k = none) (hsame : SameEntries entries updated) {P Q : Txid → Prop}
    (hk : P k) (hP : ∀ txid, txid ≠ k → (P txid ↔ Q txid)) :
    package (updated.insert k new) P = new.own + package entries Q := by
  have hne : ∀ txid ∈ entries.keys.toFinset, txid ≠ k := by
    rintro txid hmem rfl
    rw [List.mem_toFinset, mem_keys_iff, hnew] at hmem
    cases hmem
  have hnot : k ∉ entries.keys.toFinset := fun hmem => hne k hmem rfl
  unfold package
  rw [keys_insert hsame, total_insert_pos hnot hk, own_of_insert]
  congr 1
  exact total_congr (fun txid hmem => hP txid (hne txid hmem)) fun txid hmem _ => own_of_insert_ne hsame (hne txid hmem)

theorem grown_insert {tx : Transaction} (hunspent : Unspent entries tx) (hnew : entries.lookup tx.txid = none)
    (hsame : SameEntries entries updated) (htx : new.tx = tx) :
    reach.Grown (Up entries) (Up (updated.insert tx.txid new)) tx.txid (parent_txids entries tx) where
  edges child parent := by
    rw [up_iff, up_iff]
    constructor
    · rintro ⟨entry, hentry, hspends, hsome⟩
      by_cases hchild : child = tx.txid
      · subst hchild
        rw [AList.lookup_insert] at hentry
        cases hentry
        rw [htx] at hspends
        have hne : parent ≠ tx.txid := fun heq => hunspent.acyclic (heq ▸ hspends)
        rw [AList.lookup_insert_ne hne, hsame.isSome] at hsome
        exact .inr ⟨rfl, mem_parent_txids.mpr ⟨hspends, hsome⟩⟩
      · rw [AList.lookup_insert_ne hchild] at hentry
        obtain ⟨old, hold, hrestated⟩ := hsame.lookup_eq_some hentry
        rw [hrestated.tx] at hspends
        have hne : parent ≠ tx.txid := fun heq => hunspent.childless child old hold (heq ▸ hspends)
        rw [AList.lookup_insert_ne hne, hsame.isSome] at hsome
        exact .inl ⟨old, hold, hspends, hsome⟩
    · rintro (⟨old, hold, hspends, hsome⟩ | ⟨rfl, hparent⟩)
      · have hchild : child ≠ tx.txid := by
          rintro rfl
          rw [hnew] at hold
          cases hold
        have hne : parent ≠ tx.txid := fun heq => hunspent.childless child old hold (heq ▸ hspends)
        have hrel := hsame child
        rw [hold] at hrel
        cases hright : updated.lookup child with
        | none =>
          rw [hright] at hrel
          cases hrel
        | some entry =>
          rw [hright] at hrel
          cases hrel with
          | some hrestated =>
            refine ⟨entry, ?_, ?_, ?_⟩
            · rw [AList.lookup_insert_ne hchild, hright]
            · rwa [hrestated.tx]
            · rwa [AList.lookup_insert_ne hne, hsame.isSome]
      · obtain ⟨hspends, hsome⟩ := mem_parent_txids.mp hparent
        have hne : parent ≠ tx.txid := fun heq => hunspent.acyclic (heq ▸ hspends)
        refine ⟨new, AList.lookup_insert _, ?_, ?_⟩
        · rwa [htx]
        · rwa [AList.lookup_insert_ne hne, hsame.isSome]
  source child parent hup := by
    obtain ⟨entry, hentry, _⟩ := up_iff.mp hup
    rintro rfl
    rw [hnew] at hentry
    cases hentry
  target child parent hup := by
    obtain ⟨_, _, _, hsome⟩ := up_iff.mp hup
    rintro rfl
    rw [hnew] at hsome
    cases hsome
  tops hmem := by
    rw [mem_parent_txids, hnew] at hmem
    exact absurd hmem.2 (by decide)

end

def AboveInput (entries : HashMap Txid MempoolEntry) (tx : Transaction) (above : Txid) : Prop :=
  ∃ parent ∈ parent_txids entries tx, ReflTransGen (Up entries) parent above

/-- What the entries above the inputs of a transaction weigh. -/
noncomputable def above_inputs (entries : HashMap Txid MempoolEntry) (tx : Transaction) : Int × Int × Int :=
  package entries (AboveInput entries tx)

/-- What an addition does to an entry that was there: nothing changes above it, and if it is
    above the new entry, that is counted below it. -/
structure Extended (entries after : HashMap Txid MempoolEntry) (entry : MempoolEntry) (txid : Txid)
    (old found : MempoolEntry) : Prop where
  ancestors : found.ancestors = old.ancestors
  above : package after (ReflTransGen (Up after) txid) = package entries (ReflTransGen (Up entries) txid)
  below : ∃ extra, (extra = 0 ∨ extra = entry.own ∧ AboveInput entries entry.tx txid) ∧
    found.descendants = old.descendants + extra ∧
    (package after fun below => ReflTransGen (Up after) below txid) =
      (package entries fun below => ReflTransGen (Up entries) below txid) + extra

/-- The pool after an addition. -/
structure Added (entries after : HashMap Txid MempoolEntry) (entry new : MempoolEntry) : Prop where
  lookup_new : after.lookup entry.txid = some new
  tx : new.tx = entry.tx
  own : new.own = entry.own
  descendants : new.descendants = entry.descendants
  ancestors : new.ancestors = entry.ancestors + ((parent_txids entries entry.tx).map (ancestors_of entries)).sum
  above : package after (ReflTransGen (Up after) entry.txid) = entry.own + above_inputs entries entry.tx
  below : (package after fun below => ReflTransGen (Up after) below entry.txid) = entry.own
  others : ∀ {txid : Txid} {found : MempoolEntry}, txid ≠ entry.txid → after.lookup txid = some found →
    ∃ old, entries.lookup txid = some old ∧ Extended entries after entry txid old found

theorem TxMemPool.add_unchecked_added {pool after : TxMemPool} {entry : MempoolEntry}
    (hunspent : Unspent pool.entries entry.tx) (hnew : pool.entries.lookup entry.txid = none) {added : Bool}
    (hadd : pool.add_unchecked entry = .ok (after, added)) : ∃ new, Added pool.entries after.entries entry new := by
  obtain ⟨hexists, _⟩ | ⟨_, new, updated, hparents, hfold, hafter⟩ := TxMemPool.add_unchecked_eq_ok hadd
  · rw [TxMemPool.exists, hnew] at hexists
    cases hexists
  · obtain ⟨htx, hown, hdescendants, hancestors⟩ := add_parents_eq_ok hparents
    have hsame : SameEntries pool.entries updated :=
      sameEntries_of_update (fun hedit => (MempoolEntry.add_descendant_eq_ok hedit).1) collect_ancestors_nodup hfold
    have hgrown : reach.Grown (Up pool.entries) (Up (updated.insert entry.txid new)) entry.txid
        (parent_txids pool.entries entry.tx) := grown_insert hunspent hnew hsame htx
    rw [hafter]
    refine ⟨new, AList.lookup_insert _, htx, hown, hdescendants, hancestors, ?_, ?_, ?_⟩
    · have habove : ∀ above, above ≠ entry.txid → (ReflTransGen (Up (updated.insert entry.txid new)) entry.txid above ↔
          AboveInput pool.entries entry.tx above) := by
        intro above hne
        rw [hgrown.reach_new, or_iff_right hne]
        exact Iff.rfl
      rw [package_insert_new hnew hsame .refl habove, hown]
      rfl
    · -- nothing leads to the new entry
      rw [package_insert_new hnew hsame .refl (Q := fun _ => False) fun below hne => by
          rw [hgrown.reach_old hne]
          exact iff_false_intro (hgrown.not_reach_old hne), hown]
      exact (congrArg _ (total_false fun _ _ => id)).trans (add_zero _)
    · intro txid found hne hfound
      rw [AList.lookup_insert_ne hne] at hfound
      obtain ⟨old, hold, hrestated⟩ := hsame.lookup_eq_some hfound
      refine ⟨old, hold, hrestated.ancestors, ?_, ?_⟩
      · apply package_insert_old hnew hsame _ fun above _ => hgrown.reach_old hne
        rw [hgrown.reach_old hne]
        exact hgrown.not_reach_old hne
      · obtain ⟨hother, hedited, _⟩ := update_entries_eq_ok collect_ancestors_nodup hfold txid
        have hbelow : ∀ below, below ≠ entry.txid → (ReflTransGen (Up (updated.insert entry.txid new)) below txid ↔
            ReflTransGen (Up pool.entries) below txid) := fun below hne => hgrown.reach_old hne
        have habove : txid ∈ collect_ancestors_from_entries pool.entries new ↔ AboveInput pool.entries entry.tx txid := by
          unfold AboveInput
          rw [mem_collect_ancestors, htx]
          simp only [mem_parent_txids, and_assoc]
        have hmem : txid ∈ collect_ancestors_from_entries pool.entries new ↔
            ReflTransGen (Up (updated.insert entry.txid new)) entry.txid txid := by
          rw [habove, hgrown.reach_new, or_iff_right hne]
          exact Iff.rfl
        by_cases hcollected : txid ∈ collect_ancestors_from_entries pool.entries new
        · obtain ⟨edited, hedit, hlookup⟩ := hedited hcollected old hold
          rw [hlookup] at hfound
          cases hfound
          refine ⟨new.own, .inr ⟨hown, habove.mp hcollected⟩, (MempoolEntry.add_descendant_eq_ok hedit).2, ?_⟩
          rw [package_insert_new hnew hsame (hmem.mp hcollected) hbelow, add_comm]
        · rw [hother hcollected, hold] at hfound
          cases hfound
          refine ⟨0, .inl rfl, (add_zero _).symm, ?_⟩
          rw [package_insert_old hnew hsame (fun hreach => hcollected (hmem.mpr hreach)) hbelow, add_zero]

theorem Exact.ancestors_of_eq (hexact : Exact entries) {txid : Txid} (hsome : (entries.lookup txid).isSome) :
    ancestors_of entries txid = package entries (ReflTransGen (Up entries) txid) := by
  obtain ⟨entry, hentry⟩ := Option.isSome_iff_exists.mp hsome
  rw [ancestors_of, hentry]
  exact hexact.ancestors hentry

theorem Exact.sum_ancestors_of (hexact : Exact entries) {tx : Transaction} (hclean : CleanAddition entries tx) :
    ((parent_txids entries tx).map (ancestors_of entries)).sum = above_inputs entries tx := by
  have habove : (parent_txids entries tx).map (ancestors_of entries) =
      (parent_txids entries tx).map fun parent => package entries (ReflTransGen (Up entries) parent) :=
    List.map_congr_left fun parent hparent => hexact.ancestors_of_eq (mem_parent_txids.mp hparent).2
  have hseparate : (parent_txids entries tx).Pairwise fun left right => ∀ above ∈ entries.keys.toFinset,
      ReflTransGen (Up entries) left above → ¬ ReflTransGen (Up entries) right above :=
    hclean.separate.imp fun hdisjoint above _ => hdisjoint above
  rw [habove]
  exact (total_exists (fun parent => ReflTransGen (Up entries) parent) hseparate).symm

theorem Exact.add_unchecked {pool after : TxMemPool} (hexact : Exact pool.entries) {entry : MempoolEntry}
    (hfresh : Fresh entry) (hclean : pool.entries.lookup entry.txid = none → CleanAddition pool.entries entry.tx)
    {added : Bool} (hadd : pool.add_unchecked entry = .ok (after, added)) : Exact after.entries := by
  obtain ⟨_, rfl⟩ | ⟨hnew, _⟩ := TxMemPool.add_unchecked_eq_ok hadd
  · exact hexact
  · have hclean := hclean hnew
    obtain ⟨new, hadded⟩ := TxMemPool.add_unchecked_added hclean.toUnspent hnew hadd
    refine ⟨?_, ?_⟩
    · intro txid found hfound
      by_cases hcase : txid = entry.txid
      · subst hcase
        rw [hadded.lookup_new] at hfound
        cases hfound
        rw [hadded.ancestors, hadded.above, hfresh.ancestors, hexact.sum_ancestors_of hclean]
      · obtain ⟨old, hold, hextended⟩ := hadded.others hcase hfound
        rw [hextended.ancestors, hextended.above, hexact.ancestors hold]
    · intro txid found hfound
      by_cases hcase : txid = entry.txid
      · subst hcase
        rw [hadded.lookup_new] at hfound
        cases hfound
        rw [hadded.descendants, hadded.below, hfresh.descendants]
      · obtain ⟨old, hold, hextended⟩ := hadded.others hcase hfound
        obtain ⟨extra, _, hdescendants, hbelow⟩ := hextended.below
        rw [hdescendants, hbelow, hexact.descendants hold]

end qubitcoin.mempool
