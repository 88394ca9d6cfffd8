import Qubitcoin.Mempool.Limits
import Qubitcoin.Mempool.Spenders
import Qubitcoin.Lib.MapTotal

/-! The removal of a transaction with its descendants: which entries go, which stay, and
    how the pool is trimmed to its limit. -/

open qubitcoin primitives script transaction Relation weight

namespace qubitcoin.mempool

def SpendsOutput (entries : HashMap Txid MempoolEntry) (parent child : Txid) : Prop :=
  ∃ above below, entries.lookup parent = some above ∧ entries.lookup child = some below ∧
    ∃ input ∈ below.tx.vin, input.prevout.hash = parent ∧ input.prevout.n.toNat < above.tx.vout.length

theorem Indexed.leads_iff {pool : TxMemPool} (hindexed : Indexed pool) {parent child : Txid} :
    reach.Leads (entry_children pool.entries pool.spenders) parent child ↔ SpendsOutput pool.entries parent child := by
  unfold reach.Leads entry_children SpendsOutput
  cases habove : pool.entries.lookup parent with
  | none => exact ⟨nofun, by rintro ⟨_, _, ⟨⟩, _⟩⟩
  | some above =>
    dsimp only
    rw [List.mem_filterMap]
    constructor
    · rintro ⟨idx, hidx, hspender⟩
      rw [List.mem_range] at hidx
      obtain ⟨below, hbelow, input, hinput, hprevout⟩ := hindexed.spenders.mp hspender
      refine ⟨above, below, rfl, hbelow, input, hinput, ?_, ?_⟩
      · rw [hprevout]
      · rw [hprevout]
        have hle : (UInt32.ofNat idx).toNat ≤ idx := by
          rw [UInt32.toNat_ofNat']
          exact Nat.mod_le _ _
        exact Nat.lt_of_le_of_lt hle hidx
    · rintro ⟨_, below, ⟨⟩, hbelow, input, hinput, rfl, houtput⟩
      refine ⟨input.prevout.n.toNat, List.mem_range.mpr houtput, ?_⟩
      rw [UInt32.ofNat_toNat]
      exact hindexed.spenders.mpr ⟨below, hbelow, input, hinput, rfl⟩

theorem Indexed.collect_descendants {pool : TxMemPool} (hindexed : Indexed pool) (txid : Txid) :
    (txid :: collect_descendants_locked pool.entries pool.spenders txid).Nodup ∧
      ∀ other, other ∈ txid :: collect_descendants_locked pool.entries pool.spenders txid ↔
        ReflTransGen (SpendsOutput pool.entries) txid other := by
  have hlisted : ∀ parent, entry_children pool.entries pool.spenders parent ⊆ pool.spenders.entries.map Sigma.snd := by
    intro parent child hchild
    unfold entry_children at hchild
    split at hchild
    · obtain ⟨idx, _, hspender⟩ := List.mem_filterMap.mp hchild
      exact List.mem_map.mpr ⟨⟨_, child⟩, AList.mem_lookup_iff.mp hspender, rfl⟩
    · cases hchild
  have hlength : (txid :: pool.spenders.entries.map Sigma.snd).length ≤ pool.spenders.keys.length + 1 := by
    rw [List.length_cons, List.length_map]
    exact Nat.succ_le_succ (Nat.le_of_eq (List.length_map _).symm)
  obtain ⟨hnodup, ⟨rest, hrest⟩, hmem⟩ := reach.discover_root (entry_children pool.entries pool.spenders)
    (fun parent _ child hchild => List.mem_cons_of_mem txid (hlisted parent hchild)) List.mem_cons_self hlength
  have hleads : reach.Leads (entry_children pool.entries pool.spenders) = SpendsOutput pool.entries := by
    funext parent child
    exact propext hindexed.leads_iff
  have hwhole : txid :: collect_descendants_locked pool.entries pool.spenders txid =
      reach.discover (entry_children pool.entries pool.spenders) (pool.spenders.keys.length + 1) [txid] [txid] := by
    unfold collect_descendants_locked
    rw [← hrest]
    rfl
  rw [hwhole]
  exact ⟨hnodup, fun other => hleads ▸ hmem other⟩

theorem TxMemPool.remove_entry_left {pool after : TxMemPool} {txid : Txid} {removed : Option MempoolEntry}
    (hremove : pool.remove_entry txid = .ok (after, removed)) :
    Left pool.entries after.entries [txid] ∧ after.max_mempool_size = pool.max_mempool_size ∧
      removed = pool.entries.lookup txid := by
  unfold TxMemPool.remove_entry at hremove
  cases hlookup : pool.entries.lookup txid with
  | none =>
    rw [hlookup] at hremove
    cases hremove
    refine ⟨⟨fun other hother => ?_, fun other _ => (Left.refl pool.entries).kept other List.not_mem_nil⟩, rfl, rfl⟩
    rw [List.mem_singleton.mp hother, hlookup]
  | some entry =>
    rw [hlookup] at hremove
    obtain ⟨updated, hfold, hremove⟩ := bind_eq_ok_iff.mp hremove
    cases hremove
    have hsame : SameEntries (pool.entries.erase txid) updated :=
      sameEntries_of_update MempoolEntry.remove_descendant_restated collect_ancestors_nodup hfold
    exact ⟨((Left.refl pool.entries).erase txid).trans hsame, rfl, rfl⟩

/-- Removals of different entries take these away, leave the others in place, and give each
    transaction that goes once. -/
theorem TxMemPool.remove_entries_left {txids : List Txid} : ∀ {pool after : TxMemPool} {removed : List Transaction},
    txids.Nodup → pool.remove_entries txids = .ok (after, removed) →
      Left pool.entries after.entries txids ∧ after.max_mempool_size = pool.max_mempool_size ∧
        removed = txids.filterMap pool.get := by
  induction txids with
  | nil =>
    intro pool after removed _ hremove
    cases hremove
    exact ⟨.refl pool.entries, rfl, rfl⟩
  | cons txid rest ih =>
    intro pool after removed hnodup hremove
    obtain ⟨hnot, hnodup⟩ := List.nodup_cons.mp hnodup
    unfold TxMemPool.remove_entries at hremove
    obtain ⟨⟨middle, first⟩, hfirst, hremove⟩ := bind_eq_ok_iff.mp hremove
    obtain ⟨⟨last, others⟩, hrest, hremove⟩ := bind_eq_ok_iff.mp hremove
    cases hremove
    obtain ⟨hleft, hsize, hremoved⟩ := TxMemPool.remove_entry_left hfirst
    obtain ⟨hlast, hsize', hothers⟩ := ih hnodup hrest
    refine ⟨hleft.append hlast, hsize'.trans hsize, ?_⟩
    have hsame : rest.filterMap middle.get = rest.filterMap pool.get := by
      apply List.filterMap_congr
      intro other hother
      have hrel := hleft.kept other fun hmem => hnot (List.mem_singleton.mp hmem ▸ hother)
      unfold TxMemPool.get
      generalize pool.entries.lookup other = old at hrel ⊢
      generalize middle.entries.lookup other = new at hrel ⊢
      cases hrel with
      | none => rfl
      | some hrestated => rw [Option.map_some, Option.map_some, hrestated.tx]
    rw [List.filterMap_cons, hothers, hsame, hremoved]
    unfold TxMemPool.get
    cases pool.entries.lookup txid <;> rfl

theorem Indexed.remove_recursive_left {pool after : TxMemPool} (hindexed : Indexed pool) {txid : Txid}
    (hsome : pool.exists txid = true) {removed : List Transaction}
    (hremove : pool.remove_recursive txid = .ok (after, removed)) :
    Left pool.entries after.entries (txid :: collect_descendants_locked pool.entries pool.spenders txid) ∧
      after.max_mempool_size = pool.max_mempool_size ∧
      removed = (txid :: collect_descendants_locked pool.entries pool.spenders txid).filterMap pool.get := by
  unfold TxMemPool.remove_recursive at hremove
  rw [if_pos hsome] at hremove
  exact TxMemPool.remove_entries_left (hindexed.collect_descendants txid).1 hremove

theorem Indexed.remaining_spends_nothing {pool after : TxMemPool} (hindexed : Indexed pool) {txid : Txid}
    (hleft : Left pool.entries after.entries (txid :: collect_descendants_locked pool.entries pool.spenders txid))
    {parent child : Txid} {above below : MempoolEntry} (hparent : ReflTransGen (SpendsOutput pool.entries) txid parent)
    (habove : pool.entries.lookup parent = some above) (hbelow : after.entries.lookup child = some below) :
    ¬ ∃ input ∈ below.tx.vin, input.prevout.hash = parent ∧ input.prevout.n.toNat < above.tx.vout.length := by
  rintro ⟨input, hinput, hhash, houtput⟩
  obtain ⟨hkept, old, hold, hrestated⟩ := hleft.lookup_eq_some hbelow
  apply hkept
  rw [(hindexed.collect_descendants txid).2]
  exact hparent.tail ⟨above, old, habove, hold, input, hrestated.tx ▸ hinput, hhash, houtput⟩

/-- What holds of every entry with its id, transaction, and own weight. -/
def Every (P : Txid → Transaction → Int × Int × Int → Prop) (pool : TxMemPool) : Prop :=
  ∀ (txid : Txid) (entry : MempoolEntry), pool.entries.lookup txid = some entry → P txid entry.tx entry.own

/-- The pool has no entries but those of another one, with the same weights. -/
def Kept (pool after : TxMemPool) : Prop :=
  ∀ (txid : Txid) (new : MempoolEntry), after.entries.lookup txid = some new →
    ∃ old, pool.entries.lookup txid = some old ∧ Restated old new

theorem Kept.refl (pool : TxMemPool) : Kept pool pool := fun _ new hnew => ⟨new, hnew, .refl new⟩

theorem Kept.trans {pool middle after : TxMemPool} (hfirst : Kept pool middle) (hsecond : Kept middle after) :
    Kept pool after := by
  intro txid new hnew
  obtain ⟨half, hhalf, hrestated⟩ := hsecond txid new hnew
  obtain ⟨old, hold, hrestated'⟩ := hfirst txid half hhalf
  exact ⟨old, hold, hrestated'.trans hrestated⟩

theorem Left.every_kept {pool after : TxMemPool} {done : List Txid} (hleft : Left pool.entries after.entries done) :
    Kept pool after := by
  intro txid new hnew
  exact (hleft.lookup_eq_some hnew).2

theorem TxMemPool.remove_entries_kept {txids : List Txid} : ∀ {pool after : TxMemPool} {removed : List Transaction},
    pool.remove_entries txids = .ok (after, removed) → Kept pool after := by
  induction txids with
  | nil =>
    intro pool after removed hremove
    cases hremove
    exact .refl pool
  | cons txid rest ih =>
    intro pool after removed hremove
    unfold TxMemPool.remove_entries at hremove
    obtain ⟨⟨middle, first⟩, hfirst, hremove⟩ := bind_eq_ok_iff.mp hremove
    obtain ⟨⟨last, others⟩, hrest, hremove⟩ := bind_eq_ok_iff.mp hremove
    cases hremove
    exact (TxMemPool.remove_entry_left hfirst).1.every_kept.trans (ih hrest)

theorem TxMemPool.remove_recursive_kept {pool after : TxMemPool} {txid : Txid} {removed : List Transaction}
    (hremove : pool.remove_recursive txid = .ok (after, removed)) : Kept pool after := by
  unfold TxMemPool.remove_recursive at hremove
  split at hremove
  · exact TxMemPool.remove_entries_kept hremove
  · cases hremove
    exact .refl pool

theorem TxMemPool.remove_all_recursive_kept {txids : List Txid} : ∀ {pool after : TxMemPool},
    pool.remove_all_recursive txids = .ok after → Kept pool after := by
  induction txids with
  | nil =>
    intro pool after hremove
    cases hremove
    exact .refl pool
  | cons txid rest ih =>
    intro pool after hremove
    unfold TxMemPool.remove_all_recursive at hremove
    obtain ⟨⟨middle, first⟩, hfirst, hrest⟩ := bind_eq_ok_iff.mp hremove
    exact (TxMemPool.remove_recursive_kept hfirst).trans (ih hrest)

theorem TxMemPool.trim_to_size_kept {orders : List (List Txid)} : ∀ {pool after : TxMemPool},
    pool.trim_to_size orders = .ok after → Kept pool after := by
  induction orders with
  | nil =>
    intro pool after htrim
    cases htrim
    exact .refl pool
  | cons order orders ih =>
    intro pool after htrim
    unfold TxMemPool.trim_to_size at htrim
    split at htrim
    · cases htrim
      exact .refl pool
    · obtain ⟨worst, _, htrim⟩ := bind_eq_ok_iff.mp htrim
      cases worst with
      | none =>
        cases htrim
        exact .refl pool
      | some worst =>
        obtain ⟨⟨middle, removed⟩, hremove, htrim⟩ := bind_eq_ok_iff.mp htrim
        exact (TxMemPool.remove_recursive_kept hremove).trans (ih htrim)

section

variable {P : Txid → Transaction → Int × Int × Int → Prop} {pool after : TxMemPool} (hevery : Every P pool)
include hevery

theorem Every.kept (hkept : Kept pool after) : Every P after := by
  intro txid new hnew
  obtain ⟨old, hold, hrestated⟩ := hkept txid new hnew
  rw [hrestated.tx, hrestated.own]
  exact hevery txid old hold

theorem Every.add_unchecked {entry : MempoolEntry} (hentry : P entry.txid entry.tx entry.own) {added : Bool}
    (hadd : pool.add_unchecked entry = .ok (after, added)) : Every P after := by
  unfold TxMemPool.add_unchecked at hadd
  dsimp only at hadd
  split at hadd
  · cases hadd
    exact hevery
  · obtain ⟨new, hparents, hadd⟩ := bind_eq_ok_iff.mp hadd
    obtain ⟨updated, hfold, hadd⟩ := bind_eq_ok_iff.mp hadd
    cases hadd
    have hsame : SameEntries pool.entries updated :=
      sameEntries_of_update (fun hedit => (MempoolEntry.add_descendant_eq_ok hedit).1) collect_ancestors_nodup hfold
    obtain ⟨htx, hown, _⟩ := add_parents_eq_ok hparents
    intro txid found hfound
    dsimp only at hfound
    by_cases hself : txid = entry.txid
    · subst hself
      rw [AList.lookup_insert] at hfound
      cases hfound
      rwa [htx, hown]
    · rw [AList.lookup_insert_ne hself] at hfound
      obtain ⟨old, hold, hrestated⟩ := hsame.lookup_eq_some hfound
      rw [hrestated.tx, hrestated.own]
      exact hevery txid old hold

theorem Every.replace {entry : MempoolEntry} (hentry : P entry.txid entry.tx entry.own) {evict_txids : List Txid}
    {added : Bool} (hreplace : pool.replace entry evict_txids = .ok (after, added)) : Every P after := by
  unfold TxMemPool.replace at hreplace
  obtain ⟨middle, hremove, hadd⟩ := bind_eq_ok_iff.mp hreplace
  exact (hevery.kept (TxMemPool.remove_all_recursive_kept hremove)).add_unchecked hentry hadd

theorem Every.accept_to_mempool {tx : Transaction} {fee : Amount} {vsize : UInt32} {height : Int}
    (hentry : P tx.txid tx (1, vsize.toNat, fee))
    (haccept : mempool.accept_to_mempool pool tx fee vsize height = .ok after) : Every P after := by
  unfold mempool.accept_to_mempool at haccept
  obtain ⟨⟨entry, evicted⟩, hcheck, haccept⟩ := bind_eq_ok_iff.mp haccept
  obtain ⟨⟨committed, added⟩, hcommit, haccept⟩ := bind_eq_ok_iff.mp haccept
  cases haccept
  obtain ⟨_, hnew, _, _⟩ := check_candidate_eq_ok hcheck
  unfold MempoolEntry.new at hnew
  obtain ⟨fee_rate, _, hnew⟩ := bind_eq_ok_iff.mp hnew
  cases hnew
  unfold TxMemPool.commit at hcommit
  split at hcommit
  · refine hevery.add_unchecked ?_ hcommit
    exact hentry
  · refine hevery.replace ?_ hcommit
    exact hentry

end

def Call.Adds (P : Txid → Transaction → Int × Int × Int → Prop) : Call → Prop
  | .accept_to_mempool tx fee vsize _ => P tx.txid tx (1, vsize.toNat, fee)
  | .replace entry _ => P entry.txid entry.tx entry.own
  | _ => True

theorem every_of_empty {P : Txid → Transaction → Int × Int × Int → Prop} {pool : TxMemPool} (hempty : pool.entries = ∅) :
    Every P pool := by
  intro txid entry hlookup
  rw [hempty] at hlookup
  cases hlookup

theorem Every.apply {P : Txid → Transaction → Int × Int × Int → Prop} {pool after : TxMemPool} (hevery : Every P pool)
    {call : Call} (hadds : call.Adds P) (happly : call.apply pool = .ok after) : Every P after := by
  cases call with
  | accept_to_mempool tx fee vsize height => exact hevery.accept_to_mempool hadds happly
  | replace entry evict_txids =>
    obtain ⟨added, hreplace⟩ := map_fst_eq_ok happly
    exact hevery.replace hadds hreplace
  | remove_entry txid =>
    obtain ⟨removed, hremove⟩ := map_fst_eq_ok happly
    exact hevery.kept (TxMemPool.remove_entry_left hremove).1.every_kept
  | remove_recursive txid =>
    obtain ⟨removed, hremove⟩ := map_fst_eq_ok happly
    exact hevery.kept (TxMemPool.remove_recursive_kept hremove)
  | remove_for_block txids =>
    obtain ⟨⟨removed, txs⟩, hremove, happly⟩ := bind_eq_ok_iff.mp happly
    cases happly
    exact hevery.kept (TxMemPool.remove_entries_kept hremove)
  | trim_to_size orders => exact hevery.kept (TxMemPool.trim_to_size_kept happly)
  | expire_old now expiry_hours order =>
    obtain ⟨count, hexpire⟩ := map_fst_eq_ok happly
    unfold TxMemPool.expire_old at hexpire
    obtain ⟨age, _, hexpire⟩ := bind_eq_ok_iff.mp hexpire
    obtain ⟨removed, hremove, hexpire⟩ := bind_eq_ok_iff.mp hexpire
    cases hexpire
    exact hevery.kept (TxMemPool.remove_all_recursive_kept hremove)
  | clear =>
    cases happly
    exact every_of_empty rfl

theorem reached_every {P : Txid → Transaction → Int × Int × Int → Prop} {condition : TxMemPool → Call → Prop}
    (hadds : ∀ {pool call}, condition pool call → call.Adds P) {pool : TxMemPool} (hpool : Reached condition pool) :
    Every P pool := by
  induction hpool with
  | empty min_relay_fee max_size => exact every_of_empty rfl
  | step _ hcondition happly ih => exact ih.apply (hadds hcondition) happly

/-- Every entry is listed under its own id. -/
def Keyed (pool : TxMemPool) : Prop := Every (fun txid tx _ => tx.txid = txid) pool

theorem reached_keyed {condition : TxMemPool → Call → Prop} {pool : TxMemPool} (hpool : Reached condition pool) :
    Keyed pool := by
  refine reached_every (fun {_ call} _ => ?_) hpool
  cases call with
  | accept_to_mempool | replace => exact rfl
  | remove_entry | remove_recursive | remove_for_block | trim_to_size | expire_old | clear => exact trivial

/-- The orders are those in which the pools of the rounds give out their entries. -/
def Rounds : TxMemPool → List (List Txid) → Prop
  | _, [] => True
  | pool, order :: orders => order.Perm pool.entries.keys ∧
    ∀ worst lowest after removed, worst_entry (pool.values order) = .ok (some (worst, lowest)) →
      pool.remove_recursive worst.txid = .ok (after, removed) → Rounds after orders

theorem worst_entry_eq_ok {entries : List MempoolEntry} : ∀ {worst : Option (MempoolEntry × Int)},
    worst_entry entries = .ok worst →
      (∀ entry lowest, worst = some (entry, lowest) → entry ∈ entries) ∧ (worst = none → entries = []) := by
  induction entries with
  | nil =>
    intro worst hworst
    cases hworst
    refine ⟨?_, fun _ => rfl⟩
    intro entry lowest hnone
    cases hnone
  | cons entry rest ih =>
    intro worst hworst
    unfold worst_entry at hworst
    obtain ⟨rate, _, hworst⟩ := bind_eq_ok_iff.mp hworst
    obtain ⟨least, hleast, hworst⟩ := bind_eq_ok_iff.mp hworst
    obtain ⟨hmem, _⟩ := ih hleast
    cases least with
    | none =>
      cases hworst
      exact ⟨by rintro _ _ ⟨⟩; exact List.mem_cons_self, nofun⟩
    | some least =>
      dsimp only at hworst
      split at hworst
      · cases hworst
        refine ⟨?_, nofun⟩
        rintro _ _ ⟨⟩
        exact List.mem_cons_of_mem entry (hmem _ _ rfl)
      · cases hworst
        exact ⟨by rintro _ _ ⟨⟩; exact List.mem_cons_self, nofun⟩

theorem Left.length_lt {entries current : HashMap Txid MempoolEntry} {done : List Txid} (hleft : Left entries current done)
    {txid : Txid} (hmem : txid ∈ done) (hsome : (entries.lookup txid).isSome) :
    current.keys.length < entries.keys.length := by
  have hsub : current.keys ⊆ entries.keys := by
    intro other hother
    rw [mem_keys_iff] at hother ⊢
    obtain ⟨new, hnew⟩ := Option.isSome_iff_exists.mp hother
    obtain ⟨_, old, hold, _⟩ := hleft.lookup_eq_some hnew
    rw [hold]
    rfl
  have hgone : txid ∉ current.keys := by
    rw [mem_keys_iff, hleft.gone txid hmem]
    exact Bool.false_ne_true
  have hwhole : txid :: current.keys ⊆ entries.keys :=
    List.cons_subset.mpr ⟨mem_keys_iff.mpr hsome, hsub⟩
  exact ((List.nodup_cons.mpr ⟨hgone, current.keys_nodup⟩).subperm hwhole).length_le

/-- Each round takes an entry away, so that as many rounds as there are entries are enough
    to get down to the limit. -/
theorem trim_to_size_fits {orders : List (List Txid)} : ∀ {pool after : TxMemPool}, Keyed pool → Indexed pool →
    Rounds pool orders → pool.entries.keys.length ≤ orders.length → pool.trim_to_size orders = .ok after →
      after.current_bytes ≤ pool.max_mempool_size := by
  have hempty : ∀ {pool : TxMemPool}, pool.entries.keys = [] → pool.current_bytes = 0 := by
    intro pool hkeys
    unfold TxMemPool.current_bytes
    rw [List.map_eq_nil_iff.mp hkeys]
    rfl
  induction orders with
  | nil =>
    intro pool after _ _ _ hlength htrim
    cases htrim
    rw [hempty (List.eq_nil_of_length_eq_zero (Nat.le_zero.mp hlength))]
    exact Nat.zero_le _
  | cons order orders ih =>
    intro pool after hkeyed hindexed hrounds hlength htrim
    unfold TxMemPool.trim_to_size at htrim
    split at htrim
    · next hfits =>
      cases htrim
      exact hfits
    · obtain ⟨worst, hworst, htrim⟩ := bind_eq_ok_iff.mp htrim
      obtain ⟨hmem, hnone⟩ := worst_entry_eq_ok hworst
      cases worst with
      | none =>
        cases htrim
        have hkeys : pool.entries.keys = [] := by
          refine List.eq_nil_iff_forall_not_mem.mpr fun txid hkey => ?_
          obtain ⟨entry, hentry⟩ := Option.isSome_iff_exists.mp (mem_keys_iff.mp hkey)
          have hvalue : entry ∈ pool.values order :=
            List.mem_filterMap.mpr ⟨txid, hrounds.1.mem_iff.mpr hkey, hentry⟩
          rw [hnone rfl] at hvalue
          cases hvalue
        rw [hempty hkeys]
        exact Nat.zero_le _
      | some worst =>
        obtain ⟨worst, lowest⟩ := worst
        obtain ⟨⟨middle, removed⟩, hremove, htrim⟩ := bind_eq_ok_iff.mp htrim
        obtain ⟨txid, _, hentry⟩ := List.mem_filterMap.mp (hmem worst lowest rfl)
        have hself : worst.txid = txid := hkeyed txid worst hentry
        have hsome : (pool.entries.lookup worst.txid).isSome := by
          rw [hself, hentry]
          rfl
        obtain ⟨hleft, hsize, _⟩ := hindexed.remove_recursive_left hsome hremove
        have hless := hleft.length_lt List.mem_cons_self hsome
        rw [List.length_cons] at hlength
        rw [← hsize]
        exact ih (Every.kept hkeyed hleft.every_kept) (hindexed.remove_recursive hremove).1
          (hrounds.2 worst lowest middle removed hworst hremove) (by omega) htrim

def MempoolEntry.paid (self : MempoolEntry) : Nat := self.fee.natAbs

/-- The fees that an entry counts for its descendants stay within a bound, whatever fees of the pool
    are added to them or taken off. -/
def Affordable (bound : Nat) (entries : HashMap Txid MempoolEntry) : Prop :=
  ∀ {txid : Txid} {entry : MempoolEntry}, entries.lookup txid = some entry →
    entry.descendant_fee.natAbs + mapTotal.total MempoolEntry.paid entries ≤ bound

theorem checked_of_natAbs {bound : Nat} (hbound : bound < 2 ^ 63) {x : Int} (hx : x.natAbs ≤ bound) :
    (checked .i64 x : Result Int) = .ok x ∧ (checked .Amount x : Result Int) = .ok x := by
  have hfits : -(2 ^ 63) ≤ x ∧ x < 2 ^ 63 := ⟨by omega, by omega⟩
  exact ⟨checked_eq_ok.mpr ⟨rfl, hfits⟩, checked_eq_ok.mpr ⟨rfl, hfits⟩⟩

theorem update_entry_remove_descendant {entries : HashMap Txid MempoolEntry} {txid : Txid} {old : MempoolEntry}
    (hold : entries.lookup txid = some old) {bound : Nat} (hbound : bound < 2 ^ 63) (vsize : Int) {fee : Amount}
    (hfee : old.descendant_fee.natAbs + fee.natAbs ≤ bound) :
    ∃ new, update_entry (MempoolEntry.remove_descendant vsize fee) entries txid = .ok (entries.insert txid new) ∧
      new.fee = old.fee ∧ new.descendant_fee = old.descendant_fee - fee := by
  have hchecked : (checked .Amount (old.descendant_fee - fee) : Result Int) = .ok (old.descendant_fee - fee) :=
    (checked_of_natAbs hbound (by omega)).2
  rw [update_entry, hold]
  dsimp only
  rw [MempoolEntry.remove_descendant, hchecked]
  exact ⟨_, rfl, rfl, rfl⟩

theorem take_off_affordable {bound : Nat} (hbound : bound < 2 ^ 63) {vsize : Int} {fee : Amount} {txids : List Txid}
    (hnodup : txids.Nodup) : ∀ {entries : HashMap Txid MempoolEntry},
    (∀ {txid : Txid} {entry : MempoolEntry}, entries.lookup txid = some entry → entry.descendant_fee.natAbs +
      (if txid ∈ txids then fee.natAbs else 0) + mapTotal.total MempoolEntry.paid entries ≤ bound) →
    ∃ updated, txids.foldlM (update_entry (MempoolEntry.remove_descendant vsize fee)) entries = .ok updated ∧
      Affordable bound updated := by
  induction txids with
  | nil =>
    intro entries hentries
    exact ⟨entries, rfl, fun hlookup => hentries hlookup⟩
  | cons first rest ih =>
    intro entries hentries
    obtain ⟨hnot, hnodup⟩ := List.nodup_cons.mp hnodup
    rw [List.foldlM_cons]
    cases hfirst : entries.lookup first with
    | none =>
      have hsame : update_entry (MempoolEntry.remove_descendant vsize fee) entries first = .ok entries := by
        rw [update_entry, hfirst]
        rfl
      rw [hsame]
      refine ih hnodup fun {txid entry} hlookup => ?_
      have hne : txid ≠ first := by
        rintro rfl
        rw [hfirst] at hlookup
        cases hlookup
      have hle := hentries hlookup
      simpa only [List.mem_cons, hne, false_or] using hle
    | some old =>
      have hold := hentries hfirst
      rw [if_pos List.mem_cons_self] at hold
      obtain ⟨new, hupdate, hfee, hdescendants⟩ :=
        update_entry_remove_descendant hfirst hbound vsize (by omega : old.descendant_fee.natAbs + fee.natAbs ≤ bound)
      rw [hupdate]
      have htotal : mapTotal.total MempoolEntry.paid (entries.insert first new) = mapTotal.total MempoolEntry.paid entries := by
        have hinsert := mapTotal.total_insert_old MempoolEntry.paid hfirst new
        have hpaid : new.paid = old.paid := by rw [MempoolEntry.paid, MempoolEntry.paid, hfee]
        omega
      refine ih hnodup fun {txid entry} hlookup => ?_
      rw [htotal]
      by_cases hself : txid = first
      · subst hself
        rw [AList.lookup_insert] at hlookup
        cases hlookup
        rw [if_neg hnot, hdescendants]
        omega
      · rw [AList.lookup_insert_ne hself] at hlookup
        have hle := hentries hlookup
        simpa only [List.mem_cons, hself, false_or] using hle

section

variable {bound : Nat} (hbound : bound < 2 ^ 63)
include hbound

theorem remove_entry_returns {pool : TxMemPool} (hpool : Affordable bound pool.entries) (txid : Txid) :
    ∃ after removed, pool.remove_entry txid = .ok (after, removed) ∧ Affordable bound after.entries := by
  unfold TxMemPool.remove_entry
  cases hlookup : pool.entries.lookup txid with
  | none => exact ⟨pool, none, rfl, hpool⟩
  | some entry =>
    have htotal := mapTotal.total_erase MempoolEntry.paid hlookup
    have hnodup := @collect_ancestors_nodup (pool.entries.erase txid) entry
    obtain ⟨updated, hfold, hupdated⟩ := @take_off_affordable bound hbound entry.vsize.toNat entry.fee _ hnodup
      (pool.entries.erase txid) fun {other found} hfound => by
        have hne : other ≠ txid := by
          rintro rfl
          rw [AList.lookup_erase] at hfound
          cases hfound
        rw [AList.lookup_erase_ne hne] at hfound
        have hle := hpool hfound
        unfold MempoolEntry.paid at *
        split <;> omega
    dsimp only
    rw [hfold]
    exact ⟨_, _, rfl, hupdated⟩

theorem remove_entries_return {txids : List Txid} : ∀ {pool : TxMemPool}, Affordable bound pool.entries →
    ∃ after removed, pool.remove_entries txids = .ok (after, removed) ∧ Affordable bound after.entries := by
  induction txids with
  | nil => exact fun {pool} hpool => ⟨pool, [], rfl, hpool⟩
  | cons txid rest ih =>
    intro pool hpool
    obtain ⟨middle, first, hfirst, hmiddle⟩ := remove_entry_returns hbound hpool txid
    obtain ⟨after, others, hrest, hafter⟩ := ih hmiddle
    refine ⟨after, (first.map MempoolEntry.tx).toList ++ others, ?_, hafter⟩
    rw [TxMemPool.remove_entries, hfirst]
    dsimp only [bind, Except.bind]
    rw [hrest]
    rfl

theorem remove_recursive_returns {pool : TxMemPool} (hpool : Affordable bound pool.entries) (txid : Txid) :
    ∃ after removed, pool.remove_recursive txid = .ok (after, removed) ∧ Affordable bound after.entries := by
  unfold TxMemPool.remove_recursive
  split
  · exact remove_entries_return hbound hpool
  · exact ⟨pool, [], rfl, hpool⟩

end

theorem worst_entry_returns {bound : Nat} (hbound : bound * 1000 < 2 ^ 63) {entries : List MempoolEntry}
    (hentries : ∀ entry ∈ entries, entry.descendant_fee.natAbs ≤ bound) : ∃ worst, worst_entry entries = .ok worst := by
  induction entries with
  | nil => exact ⟨none, rfl⟩
  | cons entry rest ih =>
    obtain ⟨worst, hworst⟩ := ih fun other hmem => hentries other (List.mem_cons_of_mem entry hmem)
    have hrate : ∃ rate, entry.descendant_fee_rate = .ok rate := by
      have hle := hentries entry List.mem_cons_self
      unfold MempoolEntry.descendant_fee_rate
      split
      · have hchecked : (checked .i64 (entry.descendant_fee * 1000) : Result Int) = .ok (entry.descendant_fee * 1000) :=
          (checked_of_natAbs hbound (by omega)).1
        rw [hchecked]
        exact ⟨_, rfl⟩
      · exact ⟨_, rfl⟩
    obtain ⟨rate, hrate⟩ := hrate
    rw [worst_entry, hrate, hworst]
    dsimp only [bind, Except.bind]
    split
    · split
      · exact ⟨_, rfl⟩
      · exact ⟨_, rfl⟩
    · exact ⟨_, rfl⟩

theorem trim_to_size_returns {bound : Nat} (hbound : bound * 1000 < 2 ^ 63) {orders : List (List Txid)} :
    ∀ {pool : TxMemPool}, Affordable bound pool.entries → ∃ after, pool.trim_to_size orders = .ok after := by
  induction orders with
  | nil => exact fun {pool} _ => ⟨pool, rfl⟩
  | cons order orders ih =>
    intro pool hpool
    unfold TxMemPool.trim_to_size
    split
    · exact ⟨pool, rfl⟩
    · have hvalues : ∀ entry ∈ pool.values order, entry.descendant_fee.natAbs ≤ bound := by
        intro entry hentry
        obtain ⟨txid, _, hlookup⟩ := List.mem_filterMap.mp hentry
        exact (Nat.le_add_right _ _).trans (hpool hlookup)
      obtain ⟨worst, hworst⟩ := worst_entry_returns hbound hvalues
      rw [hworst]
      cases worst with
      | none => exact ⟨pool, rfl⟩
      | some worst =>
        obtain ⟨middle, removed, hremove, hmiddle⟩ := remove_recursive_returns (by omega) hpool worst.1.txid
        dsimp only [bind, Except.bind]
        rw [hremove]
        exact ih hmiddle

theorem exists_rounds (count : Nat) : ∀ pool : TxMemPool, ∃ orders, orders.length = count ∧ Rounds pool orders := by
  induction count with
  | zero => exact fun pool => ⟨[], rfl, trivial⟩
  | succ count ih =>
    intro pool
    by_cases hevicts : ∃ worst lowest after removed, worst_entry (pool.values pool.entries.keys) = .ok (some (worst, lowest)) ∧
        pool.remove_recursive worst.txid = .ok (after, removed)
    · obtain ⟨worst, lowest, after, removed, hworst, hremove⟩ := hevicts
      obtain ⟨orders, hlength, hrounds⟩ := ih after
      refine ⟨pool.entries.keys :: orders, congrArg (· + 1) hlength, .refl _, ?_⟩
      intro other rate middle gone hother hmiddle
      rw [hworst] at hother
      cases hother
      rw [hremove] at hmiddle
      cases hmiddle
      exact hrounds
    · obtain ⟨orders, hlength, _⟩ := ih pool
      refine ⟨pool.entries.keys :: orders, congrArg (· + 1) hlength, .refl _, ?_⟩
      intro other rate middle gone hother hmiddle
      exact absurd ⟨other, rate, middle, gone, hother, hmiddle⟩ hevicts

/-- A removal takes away a transaction and exactly the entries that spend from it directly
    or through others, each once, and leaves nothing that spends from what is gone; trimming
    ends within the limit after at most as many rounds as there are entries. Both return when the
    fees stay within their type. -/
theorem remove_recursive_removes_descendants {pool : TxMemPool}
    (hpool : Reached (fun pool call => call.Covering pool) pool) :
    (∀ {txid : Txid} {entry : MempoolEntry}, pool.entries.lookup txid = some entry →
      (Affordable (2 ^ 63 - 1) pool.entries → ∃ after removed, pool.remove_recursive txid = .ok (after, removed)) ∧
      ∀ {after : TxMemPool} {removed : List Transaction}, pool.remove_recursive txid = .ok (after, removed) →
        (∀ other, ReflTransGen (SpendsOutput pool.entries) txid other → after.entries.lookup other = none) ∧
        (∀ other, ¬ ReflTransGen (SpendsOutput pool.entries) txid other →
          Option.Rel Restated (pool.entries.lookup other) (after.entries.lookup other)) ∧
        (∀ {parent child : Txid} {above below : MempoolEntry}, ReflTransGen (SpendsOutput pool.entries) txid parent →
          pool.entries.lookup parent = some above → after.entries.lookup child = some below →
          ¬ ∃ input ∈ below.tx.vin, input.prevout.hash = parent ∧ input.prevout.n.toNat < above.tx.vout.length) ∧
        ∃ txids : List Txid, txids.Nodup ∧
          (∀ other, other ∈ txids ↔ ReflTransGen (SpendsOutput pool.entries) txid other) ∧
          removed = txids.filterMap pool.get) ∧
    ∀ {orders : List (List Txid)}, Rounds pool orders → pool.entries.keys.length ≤ orders.length →
      (Affordable ((2 ^ 63 - 1) / 1000) pool.entries → ∃ after, pool.trim_to_size orders = .ok after) ∧
      ∀ {after : TxMemPool}, pool.trim_to_size orders = .ok after → after.current_bytes ≤ pool.max_mempool_size := by
  have hindexed := hpool.indexed
  refine ⟨fun {txid entry} hentry => ⟨fun hfees => ?_, fun {after removed} hremove => ?_⟩,
    fun {orders} hrounds hlength => ⟨fun hfees => trim_to_size_returns (by decide) hfees,
      fun {after} htrim => trim_to_size_fits (reached_keyed hpool) hindexed hrounds hlength htrim⟩⟩
  · obtain ⟨after, removed, hremove, _⟩ := remove_recursive_returns (by decide) hfees txid
    exact ⟨after, removed, hremove⟩
  have hsome : pool.exists txid = true := by
    unfold TxMemPool.exists
    rw [hentry]
    rfl
  obtain ⟨hnodup, hmem⟩ := hindexed.collect_descendants txid
  obtain ⟨hleft, _, hremoved⟩ := hindexed.remove_recursive_left hsome hremove
  refine ⟨fun other hreach => hleft.gone other ((hmem other).mpr hreach),
    fun other hkept => hleft.kept other fun hother => hkept ((hmem other).mp hother),
    fun hparent habove hbelow => hindexed.remaining_spends_nothing hleft hparent habove hbelow,
    _, hnodup, hmem, hremoved⟩

def child_entry : MempoolEntry := { rival_entry with tx := spends_first }

/-- A pool that a direct replacement has filled over its limit: a transaction and its child go together, and
    the pool is trimmed. -/
theorem remove_recursive_two_outputs :
    ∃ pool, Reached (fun pool call => call.Covering pool) pool ∧ pool.max_mempool_size < pool.current_bytes ∧
      (∃ after removed, pool.remove_recursive two_outputs.txid = .ok (after, removed) ∧
        after.entries.lookup spends_first.txid = none) ∧
      ∃ orders after, Rounds pool orders ∧ pool.trim_to_size orders = .ok after ∧
        after.current_bytes ≤ pool.max_mempool_size := by
  have hrun : (do
      let first ← accept_to_mempool (.new_with_limits DEFAULT_MIN_RELAY_TX_FEE 150) two_outputs 1000 100 1
      let pool ← (Call.replace child_entry []).apply first
      pure (first.spenders.lookup ⟨two_outputs.txid, 0⟩, pool.get spends_first.txid, pool.get two_outputs.txid,
        decide (pool.max_mempool_size < pool.current_bytes ∧ ∀ entry ∈ pool.entries.entries,
          entry.2.descendant_fee.natAbs + mapTotal.total MempoolEntry.paid pool.entries ≤ 12000)) :
          Result (Option Txid × Option Transaction × Option Transaction × Bool)).toOption =
        some (none, some spends_first, some two_outputs, true) := by
    decide +kernel
  obtain ⟨first, hfirst, hrun⟩ := bind_eq_ok_iff.mp (toOption_eq_some hrun)
  obtain ⟨pool, hsecond, hrun⟩ := bind_eq_ok_iff.mp hrun
  simp only [pure, Except.pure, Except.ok.injEq, Prod.mk.injEq, decide_eq_true_iff] at hrun
  obtain ⟨hunspent, hchild, hparent, hfull, hfees⟩ := hrun
  obtain ⟨child, hchild, hchild_tx⟩ := Option.map_eq_some_iff.mp hchild
  obtain ⟨parent, hparent, hparent_tx⟩ := Option.map_eq_some_iff.mp hparent
  have hfirst : (Call.accept_to_mempool two_outputs 1000 100 1).apply (.new_with_limits DEFAULT_MIN_RELAY_TX_FEE 150) =
      .ok first := hfirst
  have hbefore : Reached (fun pool call => call.Covering pool) first :=
    @Reached.step _ _ _ (.accept_to_mempool two_outputs 1000 100 1) (.empty DEFAULT_MIN_RELAY_TX_FEE 150) trivial hfirst
  have hcovering : (Call.replace child_entry []).Covering first := by
    intro txid found outpoint hfound hspends hentry
    have hspender := hbefore.indexed.spenders.mpr ⟨found, hfound, hspends⟩
    obtain ⟨input, hinput, rfl⟩ := hentry
    rw [List.mem_singleton.mp hinput, hunspent] at hspender
    cases hspender
  have hreached := Reached.step hbefore hcovering hsecond
  have haffordable : ∀ bound, 12000 ≤ bound → Affordable bound pool.entries := fun bound hbound txid entry hlookup =>
    (hfees _ (AList.mem_lookup_iff.mp hlookup)).trans hbound
  obtain ⟨hremoves, htrims⟩ := remove_recursive_removes_descendants hreached
  obtain ⟨hreturns, hgone⟩ := hremoves hparent
  obtain ⟨after, removed, hremove⟩ := hreturns (haffordable _ (by decide))
  obtain ⟨orders, hlength, hrounds⟩ := exists_rounds pool.entries.keys.length pool
  obtain ⟨htrim, hfits⟩ := htrims hrounds hlength.ge
  obtain ⟨trimmed, htrim⟩ := htrim (haffordable _ (by decide))
  refine ⟨pool, hreached, hfull, ⟨after, removed, hremove, (hgone hremove).1 _ (.single ?_)⟩, orders, trimmed, hrounds,
    htrim, hfits htrim⟩
  refine ⟨parent, child, hparent, hchild, ⟨⟨two_outputs.txid, 0⟩, .new, SEQUENCE_FINAL, .new⟩, ?_, rfl, ?_⟩
  · rw [hchild_tx]
    exact List.mem_singleton_self _
  · rw [hparent_tx]
    decide

def spends_second : Transaction :=
  .new crypto.sha256d 2 [⟨⟨two_outputs.txid, 1⟩, .new, SEQUENCE_FINAL, .new⟩] [⟨90000, ⟨[0x51]⟩⟩] 0

/-- Two transactions of the largest fee come before the one they spend. The removal of the second of them takes
    the fees that are counted there out of their type. -/
theorem remove_recursive_overflows :
    ∃ pool, Reached (fun pool call => call.Covering pool) pool ∧ pool.exists spends_second.txid = true ∧
      ∀ after removed, pool.remove_recursive spends_second.txid ≠ .ok (after, removed) := by
  have hrun : (do
      let pool ← accept_to_mempool .new spends_first (2 ^ 63 - 1) 0 1
      let pool ← accept_to_mempool pool spends_second (2 ^ 63 - 1) 0 1
      let pool ← accept_to_mempool pool two_outputs 1000 100 1
      let pool ← (Call.remove_recursive spends_first.txid).apply pool
      pure (pool.exists spends_second.txid, (pool.remove_recursive spends_second.txid).toOption.isSome) :
        Result (Bool × Bool)).toOption = some (true, false) := by
    decide +kernel
  obtain ⟨first, hfirst, hrun⟩ := bind_eq_ok_iff.mp (toOption_eq_some hrun)
  obtain ⟨second, hsecond, hrun⟩ := bind_eq_ok_iff.mp hrun
  obtain ⟨third, hthird, hrun⟩ := bind_eq_ok_iff.mp hrun
  obtain ⟨pool, hlast, hrun⟩ := bind_eq_ok_iff.mp hrun
  obtain ⟨hexists, hnone⟩ := Prod.mk.inj (Except.ok.inj hrun)
  have hfirst : (Call.accept_to_mempool spends_first (2 ^ 63 - 1) 0 1).apply .new = .ok first := hfirst
  have hsecond : (Call.accept_to_mempool spends_second (2 ^ 63 - 1) 0 1).apply first = .ok second := hsecond
  have hthird : (Call.accept_to_mempool two_outputs 1000 100 1).apply second = .ok third := hthird
  refine ⟨pool, .step (.step (.step (.step (.empty DEFAULT_MIN_RELAY_TX_FEE DEFAULT_MAX_MEMPOOL_SIZE) ?_ hfirst) ?_
    hsecond) ?_ hthird) ?_ hlast, hexists, ?_⟩
  · exact trivial
  · exact trivial
  · exact trivial
  · exact trivial
  · intro after removed hremove
    rw [hremove] at hnone
    cases hnone

end qubitcoin.mempool
