import Qubitcoin.Mempool.Addition
import Qubitcoin.Crypto.Sha256

/-! Removing entries keeps the statistics exact when nothing that stays spends from what is
    removed, and each entry that is removed still reaches the ancestors that stay. -/

open qubitcoin primitives transaction Relation weight

namespace qubitcoin.mempool

/-- No entry that stays spends from one that is removed; and at its turn, each entry that
    is removed reaches all its ancestors that stay through entries not yet removed. -/
structure CleanRemoval (entries : HashMap Txid MempoolEntry) (txids : List Txid) : Prop where
  closed : ∀ child parent, Up entries child parent → parent ∈ txids → child ∈ txids
  reaches : ∀ (done rest : List Txid) (txid : Txid), txids = done ++ txid :: rest → txid ∉ done →
    ∀ above, above ∉ txids → TransGen (Up entries) txid above →
      TransGen (fun child parent => Up entries child parent ∧ parent ∉ done ++ [txid]) txid above

/-- What is left of the entries after the removal of some. -/
structure Left (entries current : HashMap Txid MempoolEntry) (done : List Txid) : Prop where
  gone : ∀ txid ∈ done, current.lookup txid = none
  kept : ∀ txid ∉ done, Option.Rel Restated (entries.lookup txid) (current.lookup txid)

section

variable {entries current : HashMap Txid MempoolEntry} {done : List Txid}

theorem Left.refl (entries : HashMap Txid MempoolEntry) : Left entries entries [] where
  gone := nofun
  kept txid _ := by
    cases entries.lookup txid with
    | none => exact .none
    | some entry => exact .some (.refl entry)

theorem Left.isSome (hleft : Left entries current done) {txid : Txid} (hkept : txid ∉ done) :
    (current.lookup txid).isSome = (entries.lookup txid).isSome := by
  have hrel := hleft.kept txid hkept
  generalize entries.lookup txid = old at hrel ⊢
  generalize current.lookup txid = new at hrel ⊢
  cases hrel with
  | none => rfl
  | some _ => rfl

theorem Left.lookup_eq_some (hleft : Left entries current done) {txid : Txid} {new : MempoolEntry}
    (hnew : current.lookup txid = some new) :
    txid ∉ done ∧ ∃ old, entries.lookup txid = some old ∧ Restated old new := by
  have hkept : txid ∉ done := by
    intro hdone
    rw [hleft.gone txid hdone] at hnew
    cases hnew
  have hrel := hleft.kept txid hkept
  rw [hnew] at hrel
  refine ⟨hkept, ?_⟩
  cases hold : entries.lookup txid with
  | none =>
    rw [hold] at hrel
    cases hrel
  | some old =>
    rw [hold] at hrel
    cases hrel with
    | some hrestated => exact ⟨old, rfl, hrestated⟩

theorem Left.up_iff (hleft : Left entries current done) {child parent : Txid} :
    Up current child parent ↔ reach.Without (· ∈ done) (Up entries) child parent := by
  unfold reach.Without
  rw [mempool.up_iff, mempool.up_iff]
  constructor
  · rintro ⟨new, hnew, hspends, hsome⟩
    obtain ⟨hchild, old, hold, hrestated⟩ := hleft.lookup_eq_some hnew
    have hparent : parent ∉ done := by
      intro hdone
      rw [hleft.gone parent hdone] at hsome
      cases hsome
    rw [hleft.isSome hparent] at hsome
    exact ⟨⟨old, hold, hrestated.tx ▸ hspends, hsome⟩, hchild, hparent⟩
  · rintro ⟨⟨old, hold, hspends, hsome⟩, hchild, hparent⟩
    have hrel := hleft.kept child hchild
    rw [hold] at hrel
    rw [← hleft.isSome hparent] at hsome
    cases hnew : current.lookup child with
    | none =>
      rw [hnew] at hrel
      cases hrel
    | some new =>
      rw [hnew] at hrel
      cases hrel with
      | some hrestated => exact ⟨new, rfl, hrestated.tx.symm ▸ hspends, hsome⟩

theorem Left.up (hleft : Left entries current done) : Up current = reach.Without (· ∈ done) (Up entries) := by
  funext child parent
  exact propext hleft.up_iff

theorem Left.package (hleft : Left entries current done) (P : Txid → Prop) :
    package current P = package entries fun txid => txid ∉ done ∧ P txid := by
  have hkeys : current.keys.toFinset = entries.keys.toFinset.filter (· ∉ done) := by
    ext txid
    rw [Finset.mem_filter, List.mem_toFinset, List.mem_toFinset, mem_keys_iff, mem_keys_iff]
    by_cases hdone : txid ∈ done
    · rw [hleft.gone txid hdone]
      simp [hdone]
    · rw [hleft.isSome hdone]
      simp [hdone]
  unfold mempool.package
  rw [hkeys, total_filter]
  apply total_congr fun _ _ => Iff.rfl
  intro txid _ hP
  have hrel := hleft.kept txid hP.1
  unfold own_of
  generalize entries.lookup txid = old at hrel ⊢
  generalize current.lookup txid = new at hrel ⊢
  cases hrel with
  | none => rfl
  | some hrestated => exact hrestated.own

theorem Left.erase (hleft : Left entries current done) (txid : Txid) :
    Left entries (current.erase txid) (done ++ [txid]) where
  gone other hother := by
    obtain hdone | hlast := List.mem_append.mp hother
    · by_cases hsame : other = txid
      · rw [hsame, AList.lookup_erase]
      · rw [AList.lookup_erase_ne hsame, hleft.gone other hdone]
    · rw [List.mem_singleton.mp hlast, AList.lookup_erase]
  kept other hother := by
    rw [List.mem_append, not_or, List.mem_singleton] at hother
    rw [AList.lookup_erase_ne hother.2]
    exact hleft.kept other hother.1

theorem Restated.trans {a b c : MempoolEntry} (hab : Restated a b) (hbc : Restated b c) : Restated a c :=
  ⟨hbc.tx.trans hab.tx, hbc.own.trans hab.own, hbc.ancestors.trans hab.ancestors⟩

theorem Left.trans (hleft : Left entries current done) {updated : HashMap Txid MempoolEntry}
    (hsame : SameEntries current updated) : Left entries updated done where
  gone txid hdone := by
    have hrel := hsame txid
    rw [hleft.gone txid hdone] at hrel
    generalize updated.lookup txid = new at hrel ⊢
    cases hrel with
    | none => rfl
  kept txid hkept := by
    have hold := hleft.kept txid hkept
    have hnew := hsame txid
    generalize entries.lookup txid = a at hold ⊢
    generalize current.lookup txid = b at hold hnew
    generalize updated.lookup txid = c at hnew ⊢
    cases hold with
    | none =>
      cases hnew with
      | none => exact .none
    | some hold =>
      cases hnew with
      | some hnew => exact .some (hold.trans hnew)

end

theorem package_nonneg (entries : HashMap Txid MempoolEntry) (P : Txid → Prop) :
    0 ≤ (package entries P).1 ∧ 0 ≤ (package entries P).2.1 := by
  refine total_induction (p := fun stats : Int × Int × Int => 0 ≤ stats.1 ∧ 0 ≤ stats.2.1) ⟨le_rfl, le_rfl⟩ ?_ ?_
  · exact fun a b ha hb => ⟨add_nonneg ha.1 hb.1, add_nonneg ha.2 hb.2⟩
  · intro txid _
    unfold own_of
    split
    · exact ⟨zero_le_one, Int.natCast_nonneg _⟩
    · exact ⟨le_rfl, le_rfl⟩

/-- The state in the middle of a removal: the descendant statistics of what stays count
    what was not removed yet of the descendants at the start. -/
structure Midway (entries current : HashMap Txid MempoolEntry) (txids done : List Txid) : Prop where
  left : Left entries current done
  descendants : ∀ {txid : Txid} {entry : MempoolEntry}, txid ∉ txids → current.lookup txid = some entry →
    entry.descendants = package entries fun below => below ∉ done ∧ ReflTransGen (Up entries) below txid

section

variable {entries : HashMap Txid MempoolEntry} {txids done : List Txid} {txid : Txid}

theorem package_done_append {old : MempoolEntry} (hold : entries.lookup txid = some old) (hdone : txid ∉ done)
    {P : Txid → Prop} (hP : P txid) :
    (package entries fun below => below ∉ done ∧ P below) =
      old.own + package entries fun below => below ∉ done ++ [txid] ∧ P below := by
  have hmem : txid ∈ entries.keys.toFinset := by
    rw [List.mem_toFinset, mem_keys_iff, hold]
    rfl
  have hown : own_of entries txid = old.own := by rw [own_of, hold]
  unfold package
  rw [← add_total_ne hmem ⟨hdone, hP⟩, hown]
  congr 1
  apply total_congr
  · intro below _
    rw [List.mem_append, not_or, List.mem_singleton]
    tauto
  · exact fun _ _ _ => rfl

theorem package_done_append_neg {P : Txid → Prop} (hP : ¬ P txid) :
    (package entries fun below => below ∉ done ∧ P below) =
      package entries fun below => below ∉ done ++ [txid] ∧ P below := by
  apply total_congr
  · intro below _
    rw [List.mem_append, not_or, List.mem_singleton]
    constructor
    · rintro ⟨hnot, hbelow⟩
      exact ⟨⟨hnot, fun heq => hP (heq ▸ hbelow)⟩, hbelow⟩
    · exact fun ⟨hnot, hbelow⟩ => ⟨hnot.1, hbelow⟩
  · exact fun _ _ _ => rfl

theorem CleanRemoval.kept_above (hclean : CleanRemoval entries txids) {above : Txid} (hkept : txid ∉ txids)
    (hreach : ReflTransGen (Up entries) txid above) : above ∉ txids := by
  induction hreach with
  | refl => exact hkept
  | tail _ hup ih => exact fun hmem => ih (hclean.closed _ _ hup hmem)

theorem CleanRemoval.mem_collect (hclean : CleanRemoval entries txids) {rest : List Txid}
    (hsplit : txids = done ++ txid :: rest) {remaining : HashMap Txid MempoolEntry}
    (hleft : Left entries remaining (done ++ [txid])) (hdone : txid ∉ done) {old entry : MempoolEntry}
    (hold : entries.lookup txid = some old) (htx : entry.tx = old.tx) {above : Txid} (habove : above ∉ txids) :
    above ∈ collect_ancestors_from_entries remaining entry ↔ ReflTransGen (Up entries) txid above := by
  have hne : above ≠ txid := by
    rintro rfl
    apply habove
    rw [hsplit]
    exact List.mem_append_right done List.mem_cons_self
  rw [mem_collect_ancestors, hleft.up]
  constructor
  · rintro ⟨parent, hspends, hsome, hreach⟩
    have hparent : parent ∉ done ++ [txid] := by
      intro hmem
      rw [hleft.gone parent hmem] at hsome
      cases hsome
    rw [hleft.isSome hparent] at hsome
    have hle : reach.Without (· ∈ done ++ [txid]) (Up entries) ≤ Up entries := fun _ _ hedge => hedge.1
    exact .head (up_iff.mpr ⟨old, hold, htx ▸ hspends, hsome⟩) (ReflTransGen.mono hle parent above hreach)
  · intro hreach
    obtain heq | htrans := reflTransGen_iff_eq_or_transGen.mp hreach
    · exact absurd heq hne
    · obtain ⟨parent, ⟨hup, hparent⟩, hreach⟩ :=
        TransGen.head'_iff.mp (hclean.reaches done rest txid hsplit hdone above habove htrans)
      obtain ⟨found, hfound, hspends, hsome⟩ := up_iff.mp hup
      rw [hold] at hfound
      cases hfound
      refine ⟨parent, htx ▸ hspends, ?_, reach.reach_avoiding hparent hreach⟩
      rw [hleft.isSome hparent, hsome]

theorem Midway.absent {current : HashMap Txid MempoolEntry} (hmidway : Midway entries current txids done)
    (hnone : current.lookup txid = none) : Midway entries current txids (done ++ [txid]) where
  left := {
    gone := fun other hother => by
      obtain hdone | hlast := List.mem_append.mp hother
      · exact hmidway.left.gone other hdone
      · rw [List.mem_singleton.mp hlast, hnone]
    kept := fun other hother =>
      hmidway.left.kept other fun hdone => hother (List.mem_append_left [txid] hdone) }
  descendants {above entry} habove hentry := by
    rw [hmidway.descendants habove hentry]
    apply total_congr
    · intro below hbelow
      rw [List.mem_toFinset, mem_keys_iff] at hbelow
      -- what is still in the pool at the start and not removed yet is not the absent entry
      have hsame : below ∉ done → below ≠ txid := by
        rintro hdone rfl
        rw [← hmidway.left.isSome hdone, hnone] at hbelow
        cases hbelow
      rw [List.mem_append, not_or, List.mem_singleton]
      exact and_congr_left fun _ => ⟨fun hdone => ⟨hdone, hsame hdone⟩, fun h => h.1⟩
    · exact fun _ _ _ => rfl

theorem Midway.remove_entry (hclean : CleanRemoval entries txids) {rest : List Txid}
    (hsplit : txids = done ++ txid :: rest) {pool after : TxMemPool} (hmidway : Midway entries pool.entries txids done)
    {removed : Option MempoolEntry} (hremove : pool.remove_entry txid = .ok (after, removed)) :
    Midway entries after.entries txids (done ++ [txid]) := by
  have hmem : txid ∈ txids := by
    rw [hsplit]
    exact List.mem_append_right done List.mem_cons_self
  unfold TxMemPool.remove_entry at hremove
  cases hlookup : pool.entries.lookup txid with
  | none =>
    rw [hlookup] at hremove
    cases hremove
    exact hmidway.absent hlookup
  | some entry =>
    rw [hlookup] at hremove
    obtain ⟨updated, hfold, hremove⟩ := bind_eq_ok_iff.mp hremove
    cases hremove
    obtain ⟨hdone, old, hold, hrestated⟩ := hmidway.left.lookup_eq_some hlookup
    have hleft := hmidway.left.erase txid
    have hsame : SameEntries (pool.entries.erase txid) updated :=
      sameEntries_of_update MempoolEntry.remove_descendant_restated collect_ancestors_nodup hfold
    refine ⟨hleft.trans hsame, ?_⟩
    intro above found habove hfound
    have hne : above ≠ txid := fun heq => habove (heq ▸ hmem)
    obtain ⟨hother, hedited, _⟩ := update_entries_eq_ok collect_ancestors_nodup hfold above
    obtain ⟨before, hbefore, _⟩ := hsame.lookup_eq_some hfound
    have hcounted := hmidway.descendants habove ((AList.lookup_erase_ne hne).symm.trans hbefore)
    have hcollect := hclean.mem_collect hsplit hleft hdone hold hrestated.tx habove
    by_cases hancestor : above ∈ collect_ancestors_from_entries (pool.entries.erase txid) entry
    · obtain ⟨edited, hedit, hlookup'⟩ := hedited hancestor before hbefore
      rw [hlookup'] at hfound
      cases hfound
      rw [package_done_append hold hdone (hcollect.mp hancestor), ← hrestated.own] at hcounted
      exact (MempoolEntry.remove_descendant_eq_ok hedit (package_nonneg entries _) hcounted).2
    · rw [hother hancestor, hbefore] at hfound
      cases hfound
      rwa [package_done_append_neg (P := fun below => ReflTransGen (Up entries) below above)
        fun hreach => hancestor (hcollect.mpr hreach)] at hcounted

theorem Midway.remove_entries (hclean : CleanRemoval entries txids) {rest : List Txid} : ∀ {done : List Txid}
    {pool after : TxMemPool} {removed_txs : List Transaction}, txids = done ++ rest →
    Midway entries pool.entries txids done → pool.remove_entries rest = .ok (after, removed_txs) →
      Midway entries after.entries txids txids := by
  induction rest with
  | nil =>
    intro done pool after removed_txs hsplit hmidway hremove
    cases hremove
    rw [List.append_nil] at hsplit
    rwa [← hsplit] at hmidway
  | cons txid rest ih =>
    intro done pool after removed_txs hsplit hmidway hremove
    unfold TxMemPool.remove_entries at hremove
    obtain ⟨⟨middle, removed⟩, hfirst, hremove⟩ := bind_eq_ok_iff.mp hremove
    obtain ⟨⟨last, removed_rest⟩, hrest, hremove⟩ := bind_eq_ok_iff.mp hremove
    cases hremove
    exact ih (by rw [hsplit, List.append_assoc]; rfl) (hmidway.remove_entry hclean hsplit hfirst) hrest

theorem Exact.remove_entries {pool after : TxMemPool} (hexact : Exact pool.entries) (hclean : CleanRemoval pool.entries txids)
    {removed_txs : List Transaction} (hremove : pool.remove_entries txids = .ok (after, removed_txs)) :
    Exact after.entries := by
  have hstart : Midway pool.entries pool.entries txids [] := by
    refine ⟨.refl pool.entries, ?_⟩
    intro txid entry _ hentry
    rw [hexact.descendants hentry]
    exact total_congr (fun _ _ => by simp) fun _ _ _ => rfl
  have hend := Midway.remove_entries hclean rfl hstart hremove
  have hup := hend.left.up
  refine ⟨?_, ?_⟩
  · intro txid entry hentry
    obtain ⟨hkept, old, hold, hrestated⟩ := hend.left.lookup_eq_some hentry
    rw [hrestated.ancestors, hexact.ancestors hold, hend.left.package, hup]
    apply total_congr
    · intro above _
      have hreach : ReflTransGen (reach.Without (· ∈ txids) (Up pool.entries)) txid above ↔
          ReflTransGen (Up pool.entries) txid above := reach.reach_without hclean.closed hkept
      rw [hreach]
      exact ⟨fun habove => ⟨hclean.kept_above hkept habove, habove⟩, fun h => h.2⟩
    · exact fun _ _ _ => rfl
  · intro txid entry hentry
    obtain ⟨hkept, _⟩ := hend.left.lookup_eq_some hentry
    rw [hend.descendants hkept hentry, hend.left.package, hup]
    apply total_congr
    · intro below _
      exact and_congr_right fun hbelow => (reach.reach_without hclean.closed hbelow).symm
    · exact fun _ _ _ => rfl

end

end qubitcoin.mempool

/-! The operations of the pool, and the runs in which its statistics stay exact. -/

open qubitcoin.script

namespace qubitcoin.mempool

/-- An operation on the pool. The orders are those in which the hash map gives its entries
    out. -/
inductive Operation where
  | add_unchecked (tx : Transaction) (fee : Amount) (vsize : UInt32) (time : UInt64) (entry_height : Int)
    (spends_coinbase : Bool) (sig_op_cost : UInt32)
  | accept_to_mempool (tx : Transaction) (fee : Amount) (vsize : UInt32) (height : Int)
  | replace (tx : Transaction) (fee : Amount) (vsize : UInt32) (time : UInt64) (entry_height : Int)
    (spends_coinbase : Bool) (sig_op_cost : UInt32) (evict_txids : List Txid)
  | remove_recursive (txid : Txid)
  | remove_for_block (txids : List Txid)
  | trim_to_size (orders : List (List Txid))
  | expire_old (now expiry_hours : UInt64) (order : List Txid)

def Operation.apply (pool : TxMemPool) : Operation → Result TxMemPool
  | .add_unchecked tx fee vsize time entry_height spends_coinbase sig_op_cost => do
    let entry ← MempoolEntry.new tx fee vsize time entry_height spends_coinbase sig_op_cost
    let (pool, _) ← pool.add_unchecked entry
    pure pool
  | .accept_to_mempool tx fee vsize height => mempool.accept_to_mempool pool tx fee vsize height
  | .replace tx fee vsize time entry_height spends_coinbase sig_op_cost evict_txids => do
    let entry ← MempoolEntry.new tx fee vsize time entry_height spends_coinbase sig_op_cost
    let (pool, _) ← pool.replace entry evict_txids
    pure pool
  | .remove_recursive txid => do
    let (pool, _) ← pool.remove_recursive txid
    pure pool
  | .remove_for_block txids => pool.remove_for_block txids
  | .trim_to_size orders => pool.trim_to_size orders
  | .expire_old now expiry_hours order => do
    let (pool, _) ← pool.expire_old now expiry_hours order
    pure pool

/-- The states that operations lead to from an empty pool, each operation meeting a
    condition. An operation that is refused leaves the pool as it is. -/
inductive Reachable (condition : TxMemPool → Operation → Prop) : TxMemPool → Prop
  | empty (min_relay_fee : FeeRate) (max_size : Nat) : Reachable condition (.new_with_limits min_relay_fee max_size)
  | step {pool after : TxMemPool} {operation : Operation} (hpool : Reachable condition pool)
    (hcondition : condition pool operation) (happly : operation.apply pool = .ok after) : Reachable condition after

/-- A removal with descendants is clean, if the entry is there. -/
def CleanRecursive (pool : TxMemPool) (txid : Txid) : Prop :=
  pool.exists txid = true →
    CleanRemoval pool.entries (txid :: collect_descendants_locked pool.entries pool.spenders txid)

/-- So is each in a row of them. -/
def CleanRecursives : TxMemPool → List Txid → Prop
  | _, [] => True
  | pool, txid :: rest => CleanRecursive pool txid ∧
    ∀ after removed, pool.remove_recursive txid = .ok (after, removed) → CleanRecursives after rest

/-- The evictions are clean, and after them the addition is. -/
def CleanReplacement (pool : TxMemPool) (tx : Transaction) (evicted : List Txid) : Prop :=
  CleanRecursives pool evicted ∧ ∀ after, pool.remove_all_recursive evicted = .ok after →
    after.entries.lookup tx.txid = none → CleanAddition after.entries tx

/-- Each eviction of the loop is clean. -/
def CleanTrim : TxMemPool → List (List Txid) → Prop
  | _, [] => True
  | pool, order :: orders => pool.max_mempool_size < pool.current_bytes →
    ∀ worst lowest, worst_entry (pool.values order) = .ok (some (worst, lowest)) →
      CleanRecursive pool worst.txid ∧
        ∀ after removed, pool.remove_recursive worst.txid = .ok (after, removed) → CleanTrim after orders

def Operation.Clean (pool : TxMemPool) : Operation → Prop
  | .add_unchecked tx _ _ _ _ _ _ => pool.entries.lookup tx.txid = none → CleanAddition pool.entries tx
  | .accept_to_mempool tx fee vsize height => ∀ entry evicted,
    pool.check_candidate tx fee vsize height = .ok (entry, evicted) → CleanReplacement pool tx evicted
  | .replace tx _ _ _ _ _ _ evict_txids => CleanReplacement pool tx evict_txids
  | .remove_recursive txid => CleanRecursive pool txid
  | .remove_for_block txids => CleanRemoval pool.entries txids
  | .trim_to_size orders => CleanTrim pool orders
  | .expire_old now expiry_hours order => ∀ age, checked .u64 (expiry_hours.toNat * 3600) = (.ok age : Result Int) →
    CleanRecursives pool (pool.expired (max 0 (now.toNat - age)) order)

section

variable {pool after : TxMemPool} (hexact : Exact pool.entries)

include hexact

theorem Exact.remove_recursive {txid : Txid} (hclean : CleanRecursive pool txid) {removed : List Transaction}
    (hremove : pool.remove_recursive txid = .ok (after, removed)) : Exact after.entries := by
  unfold TxMemPool.remove_recursive at hremove
  split at hremove
  · next hexists => exact hexact.remove_entries (hclean hexists) hremove
  · cases hremove
    exact hexact

theorem Exact.remove_all_recursive {txids : List Txid} (hclean : CleanRecursives pool txids)
    (hremove : pool.remove_all_recursive txids = .ok after) : Exact after.entries := by
  induction txids generalizing pool with
  | nil =>
    cases hremove
    exact hexact
  | cons txid rest ih =>
    unfold TxMemPool.remove_all_recursive at hremove
    obtain ⟨⟨middle, removed⟩, hfirst, hrest⟩ := bind_eq_ok_iff.mp hremove
    exact ih (hexact.remove_recursive hclean.1 hfirst) (hclean.2 middle removed hfirst) hrest

theorem Exact.replace {entry : MempoolEntry} (hfresh : Fresh entry) {evicted : List Txid}
    (hclean : CleanReplacement pool entry.tx evicted) {added : Bool}
    (hreplace : pool.replace entry evicted = .ok (after, added)) : Exact after.entries := by
  unfold TxMemPool.replace at hreplace
  obtain ⟨middle, hremove, hadd⟩ := bind_eq_ok_iff.mp hreplace
  have hmiddle := hexact.remove_all_recursive hclean.1 hremove
  exact hmiddle.add_unchecked hfresh (hclean.2 middle hremove) hadd

theorem Exact.trim_to_size {orders : List (List Txid)} (hclean : CleanTrim pool orders)
    (htrim : pool.trim_to_size orders = .ok after) : Exact after.entries := by
  induction orders generalizing pool with
  | nil =>
    cases htrim
    exact hexact
  | cons order orders ih =>
    unfold TxMemPool.trim_to_size at htrim
    split at htrim
    · cases htrim
      exact hexact
    · next hfull =>
      obtain ⟨worst, hworst, htrim⟩ := bind_eq_ok_iff.mp htrim
      cases worst with
      | none =>
        cases htrim
        exact hexact
      | some worst =>
        obtain ⟨⟨middle, removed⟩, hremove, htrim⟩ := bind_eq_ok_iff.mp htrim
        obtain ⟨hfirst, hrest⟩ := hclean (by omega) worst.1 worst.2 hworst
        exact ih (hexact.remove_recursive hfirst hremove) (hrest middle removed hremove) htrim

end

theorem check_candidate_eq_ok {pool : TxMemPool} {tx : Transaction} {fee : Amount} {vsize : UInt32} {height : Int}
    {entry : MempoolEntry} {evicted : List Txid}
    (hcheck : pool.check_candidate tx fee vsize height = .ok (entry, evicted)) :
    pool.exists tx.txid = false ∧ MempoolEntry.new tx fee vsize 0 height false 0 = .ok entry ∧
      pool.check_rbf entry = .ok evicted ∧ pool.check_descendant_limits entry = .ok () := by
  unfold TxMemPool.check_candidate at hcheck
  obtain ⟨_, hexists, hcheck⟩ := bind_eq_ok_iff.mp hcheck
  obtain ⟨_, _, hcheck⟩ := bind_eq_ok_iff.mp hcheck
  obtain ⟨_, _, hcheck⟩ := bind_eq_ok_iff.mp hcheck
  obtain ⟨_, _, hcheck⟩ := bind_eq_ok_iff.mp hcheck
  obtain ⟨entry, hentry, hcheck⟩ := bind_eq_ok_iff.mp hcheck
  obtain ⟨evicted, hevicted, hcheck⟩ := bind_eq_ok_iff.mp hcheck
  obtain ⟨_, hlimits, hcheck⟩ := bind_eq_ok_iff.mp hcheck
  obtain ⟨_, _, hcheck⟩ := bind_eq_ok_iff.mp hcheck
  cases hcheck
  refine ⟨?_, hentry, hevicted, hlimits⟩
  rwa [require_eq_ok, Bool.not_eq_true'] at hexists

theorem Exact.accept_to_mempool {pool after : TxMemPool} (hexact : Exact pool.entries) {tx : Transaction} {fee : Amount}
    {vsize : UInt32} {height : Int} (hclean : ∀ entry evicted,
      pool.check_candidate tx fee vsize height = .ok (entry, evicted) → CleanReplacement pool tx evicted)
    (haccept : mempool.accept_to_mempool pool tx fee vsize height = .ok after) : Exact after.entries := by
  unfold mempool.accept_to_mempool at haccept
  obtain ⟨⟨entry, evicted⟩, hcheck, haccept⟩ := bind_eq_ok_iff.mp haccept
  obtain ⟨⟨committed, added⟩, hcommit, haccept⟩ := bind_eq_ok_iff.mp haccept
  cases haccept
  obtain ⟨_, hentry, _, _⟩ := check_candidate_eq_ok hcheck
  obtain ⟨hfresh, rfl, _⟩ := MempoolEntry.new_eq_ok hentry
  have hclean := hclean entry evicted hcheck
  unfold TxMemPool.commit at hcommit
  split at hcommit
  · next hempty =>
    obtain rfl := List.isEmpty_iff.mp hempty
    exact hexact.add_unchecked hfresh (hclean.2 pool rfl) hcommit
  · exact hexact.replace hfresh hclean hcommit

theorem Exact.apply {pool after : TxMemPool} (hexact : Exact pool.entries) {operation : Operation}
    (hclean : operation.Clean pool) (happly : operation.apply pool = .ok after) : Exact after.entries := by
  cases operation with
  | add_unchecked tx fee vsize time entry_height spends_coinbase sig_op_cost =>
    obtain ⟨entry, hentry, happly⟩ := bind_eq_ok_iff.mp happly
    obtain ⟨⟨added, flag⟩, hadd, happly⟩ := bind_eq_ok_iff.mp happly
    cases happly
    obtain ⟨hfresh, rfl, _⟩ := MempoolEntry.new_eq_ok hentry
    exact hexact.add_unchecked hfresh hclean hadd
  | accept_to_mempool tx fee vsize height => exact hexact.accept_to_mempool hclean happly
  | replace tx fee vsize time entry_height spends_coinbase sig_op_cost evict_txids =>
    obtain ⟨entry, hentry, happly⟩ := bind_eq_ok_iff.mp happly
    obtain ⟨⟨replaced, flag⟩, hreplace, happly⟩ := bind_eq_ok_iff.mp happly
    cases happly
    obtain ⟨hfresh, rfl, _⟩ := MempoolEntry.new_eq_ok hentry
    exact hexact.replace hfresh hclean hreplace
  | remove_recursive txid =>
    obtain ⟨⟨removed, txs⟩, hremove, happly⟩ := bind_eq_ok_iff.mp happly
    cases happly
    exact hexact.remove_recursive hclean hremove
  | remove_for_block txids =>
    obtain ⟨⟨removed, txs⟩, hremove, happly⟩ := bind_eq_ok_iff.mp happly
    cases happly
    exact hexact.remove_entries hclean hremove
  | trim_to_size orders => exact hexact.trim_to_size hclean happly
  | expire_old now expiry_hours order =>
    obtain ⟨⟨expired, count⟩, hexpire, happly⟩ := bind_eq_ok_iff.mp happly
    cases happly
    unfold TxMemPool.expire_old at hexpire
    obtain ⟨age, hage, hexpire⟩ := bind_eq_ok_iff.mp hexpire
    obtain ⟨removed, hremove, hexpire⟩ := bind_eq_ok_iff.mp hexpire
    cases hexpire
    exact hexact.remove_all_recursive (hclean age hage) hremove

/-- In a run of clean operations the statistics of every entry are exact in every state. -/
theorem reachable_exact {pool : TxMemPool} (hpool : Reachable (fun pool operation => operation.Clean pool) pool) :
    Exact pool.entries := by
  induction hpool with
  | empty min_relay_fee max_size => exact exact_empty
  | step _ hclean happly ih => exact ih.apply hclean happly

def two_outputs : Transaction :=
  .new crypto.sha256d 2 [⟨⟨7, 0⟩, .new, SEQUENCE_FINAL, .new⟩] [⟨100000, ⟨[0x51]⟩⟩, ⟨100000, ⟨[0x51]⟩⟩] 0

def spends_first : Transaction :=
  .new crypto.sha256d 2 [⟨⟨two_outputs.txid, 0⟩, .new, SEQUENCE_FINAL, .new⟩] [⟨90000, ⟨[0x51]⟩⟩] 0

def spends_both : Transaction :=
  .new crypto.sha256d 2 [⟨⟨two_outputs.txid, 0⟩, .new, SEQUENCE_FINAL, .new⟩,
    ⟨⟨two_outputs.txid, 1⟩, .new, SEQUENCE_FINAL, .new⟩] [⟨190000, ⟨[0x51]⟩⟩] 0

/-- Add a transaction of 100 virtual bytes with a fee of 100. -/
def add_hundred (tx : Transaction) : Operation := .add_unchecked tx 100 100 0 1 false 0

instance (tx : Transaction) (txid : Txid) : Decidable (Spends tx txid) :=
  inferInstanceAs (Decidable (∃ input ∈ tx.vin, input.prevout.hash = txid))

/-- What a run shows of an entry, and the ids of the pool. -/
def shown (txid : Txid) (result : Result TxMemPool) : Option (Option (Transaction × Int × Int × Int) × List Txid) :=
  result.toOption.map fun pool =>
    ((pool.entries.lookup txid).map fun entry => (entry.tx, entry.ancestors), pool.entries.keys)

theorem toOption_eq_some {A : Type} {x : Result A} {a : A} (hsome : x.toOption = some a) : x = .ok a := by
  cases x with
  | error _ => cases hsome
  | ok _ =>
    cases hsome
    rfl

theorem shown_eq_some {txid : Txid} {result : Result TxMemPool} {entry : Transaction × Int × Int × Int}
    {keys : List Txid} (hshown : shown txid result = some (some entry, keys)) :
    ∃ pool found, result = .ok pool ∧ pool.entries.lookup txid = some found ∧ found.tx = entry.1 ∧
      found.ancestors = entry.2 ∧ pool.entries.keys = keys := by
  unfold shown at hshown
  obtain ⟨pool, hpool, hpair⟩ := Option.map_eq_some_iff.mp hshown
  obtain ⟨hentry, hkeys⟩ := Prod.mk.inj hpair
  obtain ⟨found, hfound, rfl⟩ := Option.map_eq_some_iff.mp hentry
  cases result with
  | error _ => cases hpool
  | ok _ =>
    cases hpool
    exact ⟨pool, found, rfl, hfound, rfl, rfl, hkeys⟩

/-- A parent and its child are a clean run. -/
theorem reachable_exact_child :
    ∃ pool, Reachable (fun pool operation => operation.Clean pool) pool ∧
      pool.exists spends_first.txid = true ∧ Exact pool.entries := by
  have hfirst : shown two_outputs.txid ((add_hundred two_outputs).apply .new) =
      some (some (two_outputs, 1, 100, 100), [two_outputs.txid]) := by decide +kernel
  have hboth : shown spends_first.txid (do
      let pool ← (add_hundred two_outputs).apply .new
      (add_hundred spends_first).apply pool) =
      some (some (spends_first, 2, 200, 200), [spends_first.txid, two_outputs.txid]) := by decide +kernel
  obtain ⟨first, found, hfirst, hfound, htx, _, hkeys⟩ := shown_eq_some hfirst
  obtain ⟨pool, last, hboth, hlast, _⟩ := shown_eq_some hboth
  rw [hfirst] at hboth
  have hclean_first : (add_hundred two_outputs).Clean TxMemPool.new := by
    intro _
    refine ⟨⟨?_, by decide +kernel⟩, List.Pairwise.nil⟩
    intro child entry hentry
    cases hentry
  have hclean : (add_hundred spends_first).Clean first := by
    intro _
    refine ⟨⟨?_, by decide +kernel⟩, ?_⟩
    · intro child entry hentry
      have hmem : child ∈ first.entries.keys := by
        rw [mem_keys_iff, hentry]
        rfl
      rw [hkeys, List.mem_singleton] at hmem
      rw [hmem, hfound] at hentry
      cases hentry
      rw [htx]
      decide +kernel
    · have hshort : (parent_txids first.entries spends_first).length ≤ 1 := List.length_filter_le _ _
      match parent_txids first.entries spends_first, hshort with
      | [], _ => exact List.Pairwise.nil
      | [_], _ => exact List.pairwise_singleton _ _
  have hreachable : Reachable (fun pool operation => operation.Clean pool) pool :=
    .step (.step (.empty DEFAULT_MIN_RELAY_TX_FEE DEFAULT_MAX_MEMPOOL_SIZE) hclean_first hfirst) hclean hboth
  refine ⟨pool, hreachable, ?_, reachable_exact hreachable⟩
  rw [TxMemPool.exists, hlast]
  rfl

theorem package_count_le (entries : HashMap Txid MempoolEntry) (P : Txid → Prop) :
    (package entries P).1 ≤ entries.keys.length := by
  have hone : ∀ txid, (own_of entries txid).1 ≤ 1 := by
    intro txid
    unfold own_of
    split
    · exact le_rfl
    · exact zero_le_one
  have hcard : (chosen entries.keys.toFinset P).card ≤ entries.keys.length :=
    (Finset.card_le_card fun _ hmem => (mem_chosen.mp hmem).1).trans (List.toFinset_card_le _)
  unfold package total
  rw [Prod.fst_sum]
  calc ∑ txid ∈ chosen entries.keys.toFinset P, (own_of entries txid).1
      ≤ ∑ _txid ∈ chosen entries.keys.toFinset P, 1 := Finset.sum_le_sum fun txid _ => hone txid
    _ = ((chosen entries.keys.toFinset P).card : Int) := by simp
    _ ≤ entries.keys.length := by exact_mod_cast hcard

/-- A transaction that spends two outputs of its parent counts the parent twice. -/
theorem two_inputs_statistics_not_exact :
    ∃ pool, Reachable (fun _ _ => True) pool ∧ ¬ Exact pool.entries := by
  have hrun : shown spends_both.txid (do
      let pool ← (add_hundred two_outputs).apply .new
      (add_hundred spends_both).apply pool) =
      some (some (spends_both, 3, 300, 300), [spends_both.txid, two_outputs.txid]) := by decide +kernel
  obtain ⟨pool, found, hrun, hfound, _, hancestors, hkeys⟩ := shown_eq_some hrun
  obtain ⟨first, hfirst, hsecond⟩ := bind_eq_ok_iff.mp hrun
  refine ⟨pool, .step (.step (.empty _ _) trivial hfirst) trivial hsecond, ?_⟩
  intro hexact
  have hle := package_count_le pool.entries (ReflTransGen (Up pool.entries) spends_both.txid)
  rw [← hexact.ancestors hfound, hancestors, hkeys] at hle
  exact absurd hle (by decide)

end qubitcoin.mempool
