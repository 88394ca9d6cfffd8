import Qubitcoin.Lib.Collect
import Qubitcoin.Mempool.Descendants

/-! The rules of a replacement against the set of entries that it evicts, and when the
    list of the code decides as that set does. -/

open qubitcoin primitives script transaction Relation weight

namespace qubitcoin.mempool

/-- The entry spends an outpoint that the transaction spends. -/
def Conflicts (pool : TxMemPool) (tx : Transaction) (txid : Txid) : Prop :=
  ∃ found outpoint, pool.entries.lookup txid = some found ∧ SpendsOutPoint found.tx outpoint ∧ SpendsOutPoint tx outpoint

/-- The entry conflicts with the transaction, or descends from one that does. -/
def Evicted (pool : TxMemPool) (tx : Transaction) (txid : Txid) : Prop :=
  ∃ conflict, Conflicts pool tx conflict ∧ ReflTransGen (SpendsOutput pool.entries) conflict txid

/-- The rules of a replacement, on the set of evicted entries. -/
structure Permitted (pool : TxMemPool) (entry : MempoolEntry) : Prop where
  inputs : ∀ input ∈ entry.tx.vin, ¬ Evicted pool entry.tx input.prevout.hash
  count : (package pool.entries (Evicted pool entry.tx)).1 ≤ MAX_BIP125_REPLACEMENT_CANDIDATES
  fee : (package pool.entries (Evicted pool entry.tx)).2.2 < entry.fee
  relay : ∃ relay_fee, pool.incremental_relay_fee.get_fee entry.vsize.toNat = .ok relay_fee ∧
    (package pool.entries (Evicted pool entry.tx)).2.2 + relay_fee ≤ entry.fee

/-- The check decides by the set of evicted entries: it passes when the rules hold of the
    set, it lists the set, each entry once, and the replacement leaves no conflict and no
    smaller fees. -/
structure DecidedOnSet (pool : TxMemPool) (entry : MempoolEntry) : Prop where
  permitted : (∃ evicted, pool.check_rbf entry = .ok evicted) ↔ Permitted pool entry
  evicted : ∀ evicted, pool.check_rbf entry = .ok evicted →
    evicted.Nodup ∧ ∀ txid, txid ∈ evicted ↔ Evicted pool entry.tx txid
  replaced : ∀ evicted after added, pool.check_rbf entry = .ok evicted → pool.replace entry evicted = .ok (after, added) →
    (∀ txid, Conflicts after entry.tx txid → txid = entry.txid) ∧ pool.fee_sum ≤ after.fee_sum ∧
      (IntType.i64.fits after.fee_sum → pool.total_fee ≤ after.total_fee)

/-- An entry spends the outpoint of an input of the transaction, none spent by it before,
    and descends from an entry that spends an earlier one. -/
def Repeats (pool : TxMemPool) (tx : Transaction) : Prop :=
  ∃ before input earlier conflict, before ++ [input] <+: tx.vin ∧
    pool.spenders.lookup input.prevout = some conflict ∧
    (∀ other ∈ before, pool.spenders.lookup other.prevout ≠ some conflict) ∧
    (∃ other ∈ before, pool.spenders.lookup other.prevout = some earlier) ∧
    ReflTransGen (SpendsOutput pool.entries) earlier conflict

theorem TxMemPool.direct_conflicts_eq (pool : TxMemPool) (tx : Transaction) :
    pool.direct_conflicts tx =
      (tx.vin.filterMap fun input => pool.spenders.lookup input.prevout).foldl collect.push [] := by
  rw [List.foldl_filterMap]
  unfold TxMemPool.direct_conflicts
  congr 1
  funext conflicts input
  cases pool.spenders.lookup input.prevout <;> rfl

theorem Indexed.mem_direct_conflicts {pool : TxMemPool} (hindexed : Indexed pool) {tx : Transaction} {txid : Txid} :
    txid ∈ pool.direct_conflicts tx ↔ Conflicts pool tx txid := by
  rw [TxMemPool.direct_conflicts_eq, collect.mem_pushes, or_iff_right List.not_mem_nil, List.mem_filterMap]
  constructor
  · rintro ⟨input, hinput, hspender⟩
    obtain ⟨found, hfound, hspends⟩ := hindexed.spenders.mp hspender
    exact ⟨found, input.prevout, hfound, hspends, input, hinput, rfl⟩
  · rintro ⟨found, _, hfound, hspends, input, hinput, rfl⟩
    exact ⟨input, hinput, hindexed.spenders.mpr ⟨found, hfound, hspends⟩⟩

theorem Indexed.mem_all_evicted {pool : TxMemPool} (hindexed : Indexed pool) {tx : Transaction} {txid : Txid} :
    txid ∈ pool.all_evicted (pool.direct_conflicts tx) ↔ Evicted pool tx txid := by
  have hgather : txid ∈ pool.all_evicted (pool.direct_conflicts tx) ↔ txid ∈ ([] : List Txid) ∨
      ∃ conflict ∈ pool.direct_conflicts tx, ReflTransGen (SpendsOutput pool.entries) conflict txid :=
    collect.mem_gather fun conflict => (hindexed.collect_descendants conflict).2
  rw [hgather, or_iff_right List.not_mem_nil]
  exact exists_congr fun conflict => and_congr_left fun _ => hindexed.mem_direct_conflicts

theorem Indexed.nodup_all_evicted {pool : TxMemPool} (hindexed : Indexed pool) {tx : Transaction} :
    (pool.all_evicted (pool.direct_conflicts tx)).Nodup ↔ ¬ Repeats pool tx := by
  have hgather : (pool.all_evicted (pool.direct_conflicts tx)).Nodup ↔ ([] : List Txid).Nodup ∧
      (∀ conflict ∈ pool.direct_conflicts tx, conflict ∉ ([] : List Txid)) ∧
      (pool.direct_conflicts tx).Pairwise fun earlier conflict => ¬ ReflTransGen (SpendsOutput pool.entries) earlier conflict :=
    collect.nodup_gather fun conflict => (hindexed.collect_descendants conflict).2
  have hpairs : (pool.all_evicted (pool.direct_conflicts tx)).Nodup ↔
      (pool.direct_conflicts tx).Pairwise fun earlier conflict => ¬ ReflTransGen (SpendsOutput pool.entries) earlier conflict := by
    rw [hgather]
    exact ⟨fun h => h.2.2, fun h => ⟨.nil, fun _ _ => List.not_mem_nil, h⟩⟩
  rw [hpairs, TxMemPool.direct_conflicts_eq, collect.pairwise_pushes]
  constructor
  · rintro hall ⟨before, input, earlier, conflict, ⟨rest, hrest⟩, hconflict, hfirst, ⟨other, hother, hearlier⟩, hreach⟩
    refine hall (before.filterMap fun input => pool.spenders.lookup input.prevout) conflict ?_ ?_ earlier ?_ hreach
    · refine ⟨rest.filterMap fun input => pool.spenders.lookup input.prevout, ?_⟩
      have hlast : ([input].filterMap fun input => pool.spenders.lookup input.prevout) = [conflict] := by
        rw [List.filterMap_cons, hconflict]
        rfl
      rw [← hrest, List.filterMap_append, List.filterMap_append, hlast]
    · intro hmem
      obtain ⟨other, hother, hspender⟩ := List.mem_filterMap.mp hmem
      exact hfirst other hother hspender
    · exact List.mem_filterMap.mpr ⟨other, hother, hearlier⟩
  · intro hnot before conflict hfront hfirst earlier hearlier hreach
    obtain ⟨rest, hrest⟩ := hfront
    rw [List.append_assoc] at hrest
    obtain ⟨inputs, others, hsplit, rfl, hothers⟩ := List.filterMap_eq_append_iff.mp hrest.symm
    obtain ⟨skipped, input, last, rfl, hskipped, hconflict, _⟩ := List.filterMap_eq_cons_iff.mp hothers
    have hbefore : ∀ other, other ∈ inputs ++ skipped → ∀ txid, pool.spenders.lookup other.prevout = some txid →
        txid ∈ inputs.filterMap fun input => pool.spenders.lookup input.prevout := by
      intro other hother txid hspender
      obtain hother | hother := List.mem_append.mp hother
      · exact List.mem_filterMap.mpr ⟨other, hother, hspender⟩
      · rw [hskipped other hother] at hspender
        cases hspender
    obtain ⟨other, hother, hspender⟩ := List.mem_filterMap.mp hearlier
    refine hnot ⟨inputs ++ skipped, input, earlier, conflict, ⟨last, ?_⟩, hconflict, ?_,
      ⟨other, List.mem_append_left _ hother, hspender⟩, hreach⟩
    · rw [hsplit]
      simp only [List.append_assoc, List.singleton_append]
    · exact fun other hother hspender => hfirst (hbefore other hother conflict hspender)

theorem Evicted.isSome {pool : TxMemPool} {tx : Transaction} {txid : Txid} (hevicted : Evicted pool tx txid) :
    (pool.entries.lookup txid).isSome := by
  obtain ⟨conflict, ⟨found, _, hfound, _⟩, hreach⟩ := hevicted
  cases hreach with
  | refl => exact Option.isSome_iff_exists.mpr ⟨found, hfound⟩
  | tail _ hspends =>
    obtain ⟨_, below, _, hbelow, _⟩ := hspends
    exact Option.isSome_iff_exists.mpr ⟨below, hbelow⟩

/-- No entry has a negative fee. -/
def Paying (pool : TxMemPool) : Prop := Every (fun _ _ own => 0 ≤ own.2.2) pool

section

variable {pool : TxMemPool}

theorem Paying.own_fee (hpaying : Paying pool) (txid : Txid) : 0 ≤ (own_of pool.entries txid).2.2 := by
  unfold own_of
  split
  · next entry hentry => exact hpaying txid entry hentry
  · exact le_rfl

theorem Paying.package_fee (hpaying : Paying pool) (P : Txid → Prop) : 0 ≤ (package pool.entries P).2.2 :=
  @total_induction _ _ _ _ _ P (fun stats : Int × Int × Int => 0 ≤ stats.2.2) le_rfl (fun _ _ => add_nonneg)
    fun txid _ => hpaying.own_fee txid

theorem Paying.package_fee_mono (hpaying : Paying pool) {P Q : Txid → Prop} (hle : ∀ txid, P txid → Q txid) :
    (package pool.entries P).2.2 ≤ (package pool.entries Q).2.2 := by
  have hsplit : package pool.entries Q = package pool.entries P + package pool.entries fun txid => Q txid ∧ ¬ P txid := by
    apply total_or
    · intro txid _
      have := hle txid
      tauto
    · exact fun txid _ hP hnot => hnot.2 hP
  rw [hsplit]
  exact le_add_of_nonneg_right (hpaying.package_fee _)

theorem package_eq_sum_dedup {P : Txid → Prop} {txids : List Txid} (hmem : ∀ txid, txid ∈ txids ↔ P txid)
    (hsome : ∀ txid, P txid → (pool.entries.lookup txid).isSome) :
    package pool.entries P = (txids.dedup.map (own_of pool.entries)).sum := by
  have hchosen : chosen pool.entries.keys.toFinset P = txids.dedup.toFinset := by
    ext txid
    rw [mem_chosen, List.mem_toFinset, List.mem_toFinset, List.mem_dedup, mem_keys_iff, hmem]
    exact and_iff_right_of_imp (hsome txid)
  unfold package total
  rw [hchosen, List.sum_toFinset _ txids.nodup_dedup]

theorem Indexed.package_evicted (hindexed : Indexed pool) (tx : Transaction) :
    package pool.entries (Evicted pool tx) =
      ((pool.all_evicted (pool.direct_conflicts tx)).dedup.map (own_of pool.entries)).sum :=
  package_eq_sum_dedup (fun _ => hindexed.mem_all_evicted) fun _ => Evicted.isSome

theorem sum_own_count {txids : List Txid} (hsome : ∀ txid ∈ txids, (pool.entries.lookup txid).isSome) :
    (txids.map (own_of pool.entries)).sum.1 = txids.length := by
  induction txids with
  | nil => rfl
  | cons txid rest ih =>
    obtain ⟨entry, hentry⟩ := Option.isSome_iff_exists.mp (hsome txid List.mem_cons_self)
    have hone : (own_of pool.entries txid).1 = 1 := by
      rw [own_of, hentry]
      rfl
    rw [List.map_cons, List.sum_cons, Prod.fst_add, ih fun other hother => hsome other (List.mem_cons_of_mem _ hother),
      hone, List.length_cons]
    omega

def fees (pool : TxMemPool) (txids : List Txid) : Int := (txids.map fun txid => (own_of pool.entries txid).2.2).sum

theorem sum_own_fee {txids : List Txid} : (txids.map (own_of pool.entries)).sum.2.2 = fees pool txids := by
  unfold fees
  induction txids with
  | nil => rfl
  | cons txid rest ih =>
    rw [List.map_cons, List.sum_cons, List.map_cons, List.sum_cons, ← ih]
    rfl

theorem fees_cons (pool : TxMemPool) (txid : Txid) (rest : List Txid) :
    fees pool (txid :: rest) = (own_of pool.entries txid).2.2 + fees pool rest := List.sum_cons

theorem Paying.fees_nonneg (hpaying : Paying pool) (txids : List Txid) : 0 ≤ fees pool txids :=
  List.sum_nonneg fun _ hfee => by
    obtain ⟨txid, _, rfl⟩ := List.mem_map.mp hfee
    exact hpaying.own_fee txid

theorem Paying.fees_dedup_le (hpaying : Paying pool) (txids : List Txid) : fees pool txids.dedup ≤ fees pool txids := by
  refine List.Sublist.sum_le_sum (txids.dedup_sublist.map _) fun _ hfee => ?_
  obtain ⟨txid, _, rfl⟩ := List.mem_map.mp hfee
  exact hpaying.own_fee txid

theorem evicted_total_fee_eq_ok {txids : List Txid} : ∀ {sum evicted_total_fee : Int},
    pool.evicted_total_fee sum txids = .ok evicted_total_fee → evicted_total_fee = sum + fees pool txids := by
  induction txids with
  | nil =>
    intro sum evicted_total_fee htotal
    cases htotal
    exact (add_zero sum).symm
  | cons txid rest ih =>
    intro sum evicted_total_fee htotal
    unfold TxMemPool.evicted_total_fee at htotal
    cases hentry : pool.entries.lookup txid with
    | some entry =>
      rw [hentry] at htotal
      obtain ⟨next, hnext, htotal⟩ := bind_eq_ok_iff.mp htotal
      obtain ⟨rfl, _⟩ := checked_eq_ok.mp hnext
      rw [fees_cons, own_of, hentry, ih htotal, ← add_assoc]
      rfl
    | none =>
      rw [hentry] at htotal
      rw [fees_cons, own_of, hentry, ih htotal]
      exact congrArg (sum + ·) (zero_add _).symm

theorem Paying.evicted_total_fee_ok (hpaying : Paying pool) {txids : List Txid} : ∀ {sum : Int}, 0 ≤ sum →
    sum + fees pool txids < 2 ^ 63 → pool.evicted_total_fee sum txids = .ok (sum + fees pool txids) := by
  induction txids with
  | nil =>
    intro sum _ _
    exact congrArg Except.ok (add_zero sum).symm
  | cons txid rest ih =>
    intro sum hsum hfits
    have hrest := hpaying.fees_nonneg rest
    have hown := hpaying.own_fee txid
    rw [fees_cons, own_of] at hfits ⊢
    rw [own_of] at hown
    unfold TxMemPool.evicted_total_fee
    cases hentry : pool.entries.lookup txid with
    | some entry =>
      rw [hentry] at hfits hown
      rw [← add_assoc] at hfits ⊢
      have hfee : (0 : Int) ≤ entry.fee := hown
      change sum + entry.fee + fees pool rest < 2 ^ 63 at hfits
      refine bind_eq_ok_iff.mpr ⟨sum + entry.fee, checked_eq_ok.mpr ⟨rfl, ?_⟩, ih (by omega) hfits⟩
      show -(2 ^ 63) ≤ _ ∧ _ < (2 : Int) ^ 63
      omega
    | none =>
      rw [hentry] at hfits
      change sum + (0 + fees pool rest) < 2 ^ 63 at hfits
      rw [zero_add] at hfits
      exact (ih hsum hfits).trans (congrArg (fun x => Except.ok (sum + x)) (zero_add _).symm)

end

theorem check_spends_conflicting_eq_ok {evicted : List Txid} {inputs : List TxIn} :
    check_spends_conflicting evicted inputs = .ok () ↔ ∀ input ∈ inputs, input.prevout.hash ∉ evicted := by
  induction inputs with
  | nil => exact ⟨fun _ => nofun, fun _ => rfl⟩
  | cons input rest ih =>
    unfold check_spends_conflicting
    rw [bind_eq_ok_iff, List.forall_mem_cons, ← ih]
    constructor
    · rintro ⟨_, hrequire, hrest⟩
      exact ⟨of_decide_eq_true (require_eq_ok.mp hrequire), hrest⟩
    · rintro ⟨hinput, hrest⟩
      exact ⟨(), require_eq_ok.mpr (decide_eq_true hinput), hrest⟩

theorem FeeRate.get_fee_fits {fee_rate : FeeRate} {virtual_size : Nat} {fee : Amount}
    (hfee : fee_rate.get_fee virtual_size = .ok fee) : IntType.i64.fits fee := by
  unfold FeeRate.get_fee at hfee
  obtain ⟨numer, hnumer, hfee⟩ := bind_eq_ok_iff.mp hfee
  obtain ⟨rfl, hlow, hhigh⟩ := checked_eq_ok.mp hnumer
  generalize fee_rate.sats_per_kvb * (virtual_size : Int) = numer at hlow hhigh hfee
  split at hfee
  · obtain ⟨rounded, hrounded, hfee⟩ := bind_eq_ok_iff.mp hfee
    obtain ⟨rfl, hlow', hhigh'⟩ := checked_eq_ok.mp hrounded
    cases hfee
    show -(2 ^ 63) ≤ (numer + 999) / 1000 ∧ (numer + 999) / 1000 < (2 : Int) ^ 63
    omega
  · cases hfee
    have hneg : numer.tdiv 1000 = -(-numer / 1000) := by
      rw [← Int.tdiv_eq_ediv_of_nonneg (by omega), Int.neg_tdiv, neg_neg]
    show -(2 ^ 63) ≤ numer.tdiv 1000 ∧ numer.tdiv 1000 < (2 : Int) ^ 63
    omega

theorem Paying.check_replacement_fee_eq_ok {pool : TxMemPool} (hpaying : Paying pool) {entry : MempoolEntry}
    (hfits : IntType.i64.fits entry.fee) {evicted : List Txid} :
    pool.check_replacement_fee entry evicted = .ok () ↔ fees pool evicted < entry.fee ∧
      ∃ relay_fee, pool.incremental_relay_fee.get_fee entry.vsize.toNat = .ok relay_fee ∧
        fees pool evicted + relay_fee ≤ entry.fee := by
  unfold TxMemPool.check_replacement_fee
  constructor
  · intro hcheck
    obtain ⟨_, htotal, hcheck⟩ := bind_eq_ok_iff.mp hcheck
    obtain ⟨_, hfee, hcheck⟩ := bind_eq_ok_iff.mp hcheck
    obtain ⟨relay_fee, hrelay, hcheck⟩ := bind_eq_ok_iff.mp hcheck
    obtain ⟨_, hsum, hcheck⟩ := bind_eq_ok_iff.mp hcheck
    obtain ⟨rfl, _⟩ := checked_eq_ok.mp hsum
    have hfees := evicted_total_fee_eq_ok htotal
    rw [zero_add] at hfees
    subst hfees
    exact ⟨of_decide_eq_true (require_eq_ok.mp hfee), relay_fee, hrelay, of_decide_eq_true (require_eq_ok.mp hcheck)⟩
  · rintro ⟨hfee, relay_fee, hrelay, hrequired⟩
    have hnonneg := hpaying.fees_nonneg evicted
    have hsum : pool.evicted_total_fee 0 evicted = .ok (0 + fees pool evicted) :=
      hpaying.evicted_total_fee_ok le_rfl (by rw [zero_add]; exact hfee.trans hfits.2)
    rw [zero_add] at hsum
    have hlow := (FeeRate.get_fee_fits hrelay).1
    have hrequired_fits : IntType.i64.fits (fees pool evicted + relay_fee) :=
      ⟨hlow.trans (le_add_of_nonneg_left hnonneg), hrequired.trans_lt hfits.2⟩
    refine bind_eq_ok_iff.mpr ⟨_, hsum, bind_eq_ok_iff.mpr ⟨(), require_eq_ok.mpr (decide_eq_true hfee), ?_⟩⟩
    refine bind_eq_ok_iff.mpr ⟨relay_fee, hrelay, bind_eq_ok_iff.mpr ⟨_, checked_eq_ok.mpr ⟨rfl, hrequired_fits⟩, ?_⟩⟩
    exact require_eq_ok.mpr (decide_eq_true hrequired)

section

variable {pool : TxMemPool} (hindexed : Indexed pool) (hpaying : Paying pool) (hrbf : pool.full_rbf = true)
variable {entry : MempoolEntry} (hfits : IntType.i64.fits entry.fee) (hconflict : ∃ txid, Conflicts pool entry.tx txid)
include hindexed hpaying hrbf hfits hconflict

theorem check_rbf_eq_ok {evicted : List Txid} : pool.check_rbf entry = .ok evicted ↔
    evicted = pool.all_evicted (pool.direct_conflicts entry.tx) ∧
      (∀ input ∈ entry.tx.vin, ¬ Evicted pool entry.tx input.prevout.hash) ∧
      evicted.length ≤ MAX_BIP125_REPLACEMENT_CANDIDATES ∧ fees pool evicted < entry.fee ∧
      ∃ relay_fee, pool.incremental_relay_fee.get_fee entry.vsize.toNat = .ok relay_fee ∧
        fees pool evicted + relay_fee ≤ entry.fee := by
  obtain ⟨conflict, hconflict⟩ := hconflict
  have hmem := hindexed.mem_direct_conflicts.mpr hconflict
  have hnonempty : ¬ (pool.direct_conflicts entry.tx).isEmpty = true := by
    rw [List.isEmpty_iff]
    exact List.ne_nil_of_mem hmem
  have hsignals : pool.check_signals (pool.direct_conflicts entry.tx) = .ok () := by
    cases pool.direct_conflicts entry.tx with
    | nil => rfl
    | cons first rest =>
      unfold TxMemPool.check_signals
      rw [if_pos hrbf]
      rfl
  have hinputs : (∀ input ∈ entry.tx.vin, ¬ Evicted pool entry.tx input.prevout.hash) ↔
      check_spends_conflicting (pool.all_evicted (pool.direct_conflicts entry.tx)) entry.tx.vin = .ok () := by
    rw [check_spends_conflicting_eq_ok]
    exact forall₂_congr fun input _ => not_congr hindexed.mem_all_evicted.symm
  unfold TxMemPool.check_rbf
  rw [if_neg hnonempty]
  constructor
  · intro hcheck
    obtain ⟨_, _, hcheck⟩ := bind_eq_ok_iff.mp hcheck
    obtain ⟨_, hspends, hcheck⟩ := bind_eq_ok_iff.mp hcheck
    obtain ⟨_, hlength, hcheck⟩ := bind_eq_ok_iff.mp hcheck
    obtain ⟨_, hfee, hcheck⟩ := bind_eq_ok_iff.mp hcheck
    cases hcheck
    exact ⟨rfl, hinputs.mpr hspends, of_decide_eq_true (require_eq_ok.mp hlength),
      (hpaying.check_replacement_fee_eq_ok hfits).mp hfee⟩
  · rintro ⟨rfl, hspends, hlength, hfee⟩
    refine bind_eq_ok_iff.mpr ⟨(), hsignals, bind_eq_ok_iff.mpr ⟨(), hinputs.mp hspends, ?_⟩⟩
    refine bind_eq_ok_iff.mpr ⟨(), require_eq_ok.mpr (decide_eq_true hlength), ?_⟩
    exact bind_eq_ok_iff.mpr ⟨(), (hpaying.check_replacement_fee_eq_ok hfits).mpr hfee, rfl⟩

theorem permitted_of_check {evicted : List Txid} (hcheck : pool.check_rbf entry = .ok evicted) :
    Permitted pool entry := by
  obtain ⟨rfl, hinputs, hlength, hfee, relay_fee, hrelay, hrequired⟩ :=
    (check_rbf_eq_ok hindexed hpaying hrbf hfits hconflict).mp hcheck
  have hset := hindexed.package_evicted entry.tx
  have hcount : (package pool.entries (Evicted pool entry.tx)).1 ≤
      (pool.all_evicted (pool.direct_conflicts entry.tx)).length := by
    rw [hset, sum_own_count fun txid hmem => (hindexed.mem_all_evicted.mp (List.mem_dedup.mp hmem)).isSome]
    exact_mod_cast (List.dedup_sublist _).length_le
  have hfees : (package pool.entries (Evicted pool entry.tx)).2.2 ≤
      fees pool (pool.all_evicted (pool.direct_conflicts entry.tx)) := by
    rw [hset, sum_own_fee]
    exact hpaying.fees_dedup_le _
  exact ⟨hinputs, hcount.trans (by exact_mod_cast hlength), hfees.trans_lt hfee, relay_fee, hrelay,
    (Int.add_le_add_right hfees relay_fee).trans hrequired⟩

theorem check_of_permitted (honce : ¬ Repeats pool entry.tx) (hpermitted : Permitted pool entry) :
    pool.check_rbf entry = .ok (pool.all_evicted (pool.direct_conflicts entry.tx)) := by
  have hset := hindexed.package_evicted entry.tx
  rw [(hindexed.nodup_all_evicted.mpr honce).dedup] at hset
  have hcount : (package pool.entries (Evicted pool entry.tx)).1 =
      (pool.all_evicted (pool.direct_conflicts entry.tx)).length := by
    rw [hset, sum_own_count fun txid hmem => (hindexed.mem_all_evicted.mp hmem).isSome]
  have hfees : (package pool.entries (Evicted pool entry.tx)).2.2 =
      fees pool (pool.all_evicted (pool.direct_conflicts entry.tx)) := by
    rw [hset, sum_own_fee]
  obtain ⟨hinputs, hlimit, hfee, relay_fee, hrelay, hrequired⟩ := hpermitted
  rw [hcount] at hlimit
  rw [hfees] at hfee hrequired
  exact (check_rbf_eq_ok hindexed hpaying hrbf hfits hconflict).mpr
    ⟨rfl, hinputs, by exact_mod_cast hlimit, hfee, relay_fee, hrelay, hrequired⟩

end

theorem Left.spends_output {entries current : HashMap Txid MempoolEntry} {done : List Txid}
    (hleft : Left entries current done) {parent child : Txid} (hspends : SpendsOutput current parent child) :
    SpendsOutput entries parent child := by
  obtain ⟨above, below, habove, hbelow, input, hinput, hhash, houtput⟩ := hspends
  obtain ⟨_, old, hold, hrestated⟩ := hleft.lookup_eq_some habove
  obtain ⟨_, old', hold', hrestated'⟩ := hleft.lookup_eq_some hbelow
  exact ⟨old, old', hold, hold', input, hrestated'.tx ▸ hinput, hhash, hrestated.tx ▸ houtput⟩

theorem Indexed.remove_all_recursive_left {txids : List Txid} : ∀ {pool after : TxMemPool}, Indexed pool →
    pool.remove_all_recursive txids = .ok after → ∃ done, Left pool.entries after.entries done ∧
      ∀ txid ∈ done, ∃ start ∈ txids, ReflTransGen (SpendsOutput pool.entries) start txid := by
  induction txids with
  | nil =>
    intro pool after _ hremove
    cases hremove
    exact ⟨[], .refl _, nofun⟩
  | cons first rest ih =>
    intro pool after hindexed hremove
    unfold TxMemPool.remove_all_recursive at hremove
    obtain ⟨⟨middle, removed⟩, hfirst, hrest⟩ := bind_eq_ok_iff.mp hremove
    have hmiddle : ∃ done, Left pool.entries middle.entries done ∧
        ∀ txid ∈ done, ReflTransGen (SpendsOutput pool.entries) first txid := by
      by_cases hsome : pool.exists first = true
      · exact ⟨_, (hindexed.remove_recursive_left hsome hfirst).1, fun txid => ((hindexed.collect_descendants first).2 txid).mp⟩
      · unfold TxMemPool.remove_recursive at hfirst
        rw [if_neg hsome] at hfirst
        cases hfirst
        exact ⟨[], .refl _, nofun⟩
    obtain ⟨done, hleft, hdone⟩ := hmiddle
    obtain ⟨others, hleft', hothers⟩ := ih (hindexed.remove_recursive hfirst).1 hrest
    refine ⟨done ++ others, hleft.append hleft', fun txid hmem => ?_⟩
    obtain hmem | hmem := List.mem_append.mp hmem
    · exact ⟨first, List.mem_cons_self, hdone txid hmem⟩
    · obtain ⟨start, hstart, hreach⟩ := hothers txid hmem
      have hle : SpendsOutput middle.entries ≤ SpendsOutput pool.entries := fun _ _ => hleft.spends_output
      exact ⟨start, List.mem_cons_of_mem first hstart, ReflTransGen.mono hle start txid hreach⟩

section

variable {pool after : TxMemPool} (hindexed : Indexed pool) {entry : MempoolEntry}
variable (hnew : pool.entries.lookup entry.txid = none) {evicted : List Txid} {added : Bool}
variable (hreplace : pool.replace entry evicted = .ok (after, added))
include hindexed hnew hreplace

theorem Indexed.replace_left :
    ∃ done middle new updated, Left pool.entries middle done ∧
      (∀ txid ∈ done, ∃ start ∈ evicted, ReflTransGen (SpendsOutput pool.entries) start txid) ∧
      middle.lookup entry.txid = none ∧ SameEntries middle updated ∧ new.tx = entry.tx ∧ new.own = entry.own ∧
      after.entries = updated.insert entry.txid new := by
  unfold TxMemPool.replace at hreplace
  obtain ⟨middle, hremove, hadd⟩ := bind_eq_ok_iff.mp hreplace
  obtain ⟨done, hleft, hdone⟩ := hindexed.remove_all_recursive_left hremove
  have hmissing : middle.entries.lookup entry.txid = none := by
    cases hlookup : middle.entries.lookup entry.txid with
    | none => rfl
    | some found =>
      obtain ⟨_, old, hold, _⟩ := hleft.lookup_eq_some hlookup
      rw [hnew] at hold
      cases hold
  obtain ⟨hexists, _⟩ | ⟨_, new, updated, hparents, hfold, hentries⟩ := TxMemPool.add_unchecked_eq_ok hadd
  · rw [TxMemPool.exists, hmissing] at hexists
    cases hexists
  have hsame : SameEntries middle.entries updated :=
    sameEntries_of_update (fun hedit => (MempoolEntry.add_descendant_eq_ok hedit).1) collect_ancestors_nodup hfold
  obtain ⟨htx, hown, _⟩ := add_parents_eq_ok hparents
  exact ⟨done, middle.entries, new, updated, hleft, hdone, hmissing, hsame, htx, hown, hentries⟩

theorem Paying.replace_fee_sum (hpaying : Paying pool) (hevicted : ∀ txid ∈ evicted, Evicted pool entry.tx txid)
    (hfee : (package pool.entries (Evicted pool entry.tx)).2.2 < entry.fee) : pool.fee_sum ≤ after.fee_sum := by
  obtain ⟨done, middle, new, updated, hleft, hdone, hmissing, hsame, _, hown, hentries⟩ :=
    hindexed.replace_left hnew hreplace
  have hgone : ∀ txid, txid ∈ done → Evicted pool entry.tx txid := by
    intro txid hmem
    obtain ⟨start, hstart, hreach⟩ := hdone txid hmem
    obtain ⟨conflict, hconflict, habove⟩ := hevicted start hstart
    exact ⟨conflict, hconflict, habove.trans hreach⟩
  have hremoved := hpaying.package_fee_mono hgone
  have hsplit : package pool.entries (fun _ => True) =
      package pool.entries (fun txid => txid ∉ done ∧ True) + package pool.entries (· ∈ done) := by
    apply total_or
    · exact fun txid _ => ⟨fun _ => (em' (txid ∈ done)).imp_left fun hnot => ⟨hnot, trivial⟩, fun _ => trivial⟩
    · exact fun txid _ hnot => hnot.1
  have hafter : package after.entries (fun _ => True) = entry.own + package middle fun _ => True := by
    rw [hentries, package_insert_new hmissing hsame trivial fun _ _ => Iff.rfl, hown]
  have hfee_own : entry.own.2.2 = entry.fee := rfl
  rw [fee_sum_eq_package, fee_sum_eq_package, hafter, hleft.package, hsplit, Prod.snd_add, Prod.snd_add, Prod.snd_add,
    Prod.snd_add, hfee_own]
  linarith

theorem Indexed.replace_exclusive (hcovers : Covers pool entry evicted) {txid : Txid}
    (hconflicts : Conflicts after entry.tx txid) : txid = entry.txid := by
  obtain ⟨done, middle, new, updated, _, _, _, _, htx, _, hentries⟩ := hindexed.replace_left hnew hreplace
  obtain ⟨found, outpoint, hfound, hspends, hother⟩ := hconflicts
  have hentry : after.entries.lookup entry.txid = some new := by rw [hentries, AList.lookup_insert]
  exact (hindexed.replace hcovers hreplace).exclusive hfound hentry hspends (htx ▸ hother)

end

theorem wrap_i64_eq_self {x : Int} (hfits : IntType.i64.fits x) : wrap_i64 x = x := by
  obtain ⟨hlow, hhigh⟩ := hfits
  exact Int.bmod_eq_of_le (by omega) (by omega)

theorem Reached.mono {condition weaker : TxMemPool → Call → Prop} (hle : ∀ pool call, condition pool call → weaker pool call)
    {pool : TxMemPool} (hpool : Reached condition pool) : Reached weaker pool := by
  induction hpool with
  | empty min_relay_fee max_size => exact .empty min_relay_fee max_size
  | step _ hcondition happly ih => exact ih.step (hle _ _ hcondition) happly

/-- The check decides by the set of evicted entries unless it lists an entry twice that the
    rules on the set let go. The callers give no negative fee. -/
theorem check_rbf_decided_on_set {pool : TxMemPool}
    (hpool : Reached (fun pool call => call.Covering pool ∧ call.Adds fun _ _ own => 0 ≤ own.2.2) pool)
    (hrbf : pool.full_rbf = true) {entry : MempoolEntry} (hnew : pool.entries.lookup entry.txid = none)
    (hfits : IntType.i64.fits entry.fee) (hconflict : ∃ txid, Conflicts pool entry.tx txid) :
    DecidedOnSet pool entry ↔ ¬ (Repeats pool entry.tx ∧ Permitted pool entry) := by
  have hindexed : Indexed pool := (hpool.mono fun _ _ hcall => hcall.1).indexed
  have hpaying : Paying pool := reached_every (fun hcall => hcall.2) hpool
  constructor
  · rintro hdecided ⟨hrepeats, hpermitted⟩
    obtain ⟨evicted, hcheck⟩ := hdecided.permitted.mpr hpermitted
    obtain ⟨rfl, _⟩ := (check_rbf_eq_ok hindexed hpaying hrbf hfits hconflict).mp hcheck
    exact hindexed.nodup_all_evicted.mp (hdecided.evicted _ hcheck).1 hrepeats
  · intro hnot
    have honce : Permitted pool entry → ¬ Repeats pool entry.tx := fun hpermitted hrepeats => hnot ⟨hrepeats, hpermitted⟩
    have hlist : ∀ {evicted}, pool.check_rbf entry = .ok evicted →
        evicted.Nodup ∧ ∀ txid, txid ∈ evicted ↔ Evicted pool entry.tx txid := by
      intro evicted hcheck
      have hpermitted := permitted_of_check hindexed hpaying hrbf hfits hconflict hcheck
      obtain ⟨rfl, _⟩ := (check_rbf_eq_ok hindexed hpaying hrbf hfits hconflict).mp hcheck
      exact ⟨hindexed.nodup_all_evicted.mpr (honce hpermitted), fun txid => hindexed.mem_all_evicted⟩
    refine ⟨⟨?_, ?_⟩, fun evicted => hlist, ?_⟩
    · rintro ⟨evicted, hcheck⟩
      exact permitted_of_check hindexed hpaying hrbf hfits hconflict hcheck
    · intro hpermitted
      exact ⟨_, check_of_permitted hindexed hpaying hrbf hfits hconflict (honce hpermitted) hpermitted⟩
    · intro evicted after added hcheck hreplace
      have hpermitted := permitted_of_check hindexed hpaying hrbf hfits hconflict hcheck
      have hcovers := check_rbf_covers hindexed hcheck
      have hsum : pool.fee_sum ≤ after.fee_sum :=
        Paying.replace_fee_sum hindexed hnew hreplace hpaying (fun txid => ((hlist hcheck).2 txid).mp) hpermitted.fee
      refine ⟨fun txid => hindexed.replace_exclusive hnew hreplace hcovers, hsum, fun hafter => ?_⟩
      have hnonneg : 0 ≤ pool.fee_sum := by
        rw [fee_sum_eq_package]
        exact hpaying.package_fee _
      have hbefore : IntType.i64.fits pool.fee_sum := ⟨le_trans (by decide) hnonneg, hsum.trans_lt hafter.2⟩
      rw [hindexed.total_fee, (hindexed.replace hcovers hreplace).total_fee, wrap_i64_eq_self hbefore,
        wrap_i64_eq_self hafter]
      exact hsum

theorem Reached.accept {pool after : TxMemPool} {tx : Transaction}
    (hreached : Reached (fun pool call => call.Covering pool ∧ call.Adds fun _ _ own => 0 ≤ own.2.2) pool)
    (haccept : accept_to_mempool pool tx 1000 100 1 = .ok after) :
    Reached (fun pool call => call.Covering pool ∧ call.Adds fun _ _ own => 0 ≤ own.2.2) after := by
  have happly : (Call.accept_to_mempool tx 1000 100 1).apply pool = .ok after := haccept
  refine hreached.step ⟨?_, ?_⟩ happly
  · exact trivial
  · show (0 : Int) ≤ 1000
    decide

/-- A transaction that spends what `two_outputs` spends, and another outpoint. -/
def spends_both_outpoints : Transaction :=
  .new crypto.sha256d 2 [⟨⟨7, 0⟩, .new, SEQUENCE_FINAL, .new⟩, ⟨⟨8, 0⟩, .new, SEQUENCE_FINAL, .new⟩]
    [⟨100000, ⟨[0x51]⟩⟩] 0

/-- A transaction that spends that outpoint. -/
def other_output : Transaction :=
  .new crypto.sha256d 2 [⟨⟨8, 0⟩, .new, SEQUENCE_FINAL, .new⟩] [⟨100000, ⟨[0x51]⟩⟩] 0

def spends_other : Transaction :=
  .new crypto.sha256d 2 [⟨⟨other_output.txid, 0⟩, .new, SEQUENCE_FINAL, .new⟩] [⟨90000, ⟨[0x51]⟩⟩] 0

/-- The entry of the first, whose fee is above that of both conflicts and of their children. -/
def wide_rival_entry : MempoolEntry :=
  { rival_entry with tx := spends_both_outpoints }

/-- Two conflicts with a child each are replaced, and the check lists all four. -/
theorem check_rbf_decided_two_conflicts :
    ∃ pool, Reached (fun pool call => call.Covering pool ∧ call.Adds fun _ _ own => 0 ≤ own.2.2) pool ∧
      Conflicts pool wide_rival_entry.tx two_outputs.txid ∧ Conflicts pool wide_rival_entry.tx other_output.txid ∧
      pool.check_rbf wide_rival_entry =
        .ok [two_outputs.txid, spends_first.txid, other_output.txid, spends_other.txid] ∧
      DecidedOnSet pool wide_rival_entry := by
  have hrun : (do
      let pool ← accept_to_mempool .new two_outputs 1000 100 1
      let pool ← accept_to_mempool pool spends_first 1000 100 1
      let pool ← accept_to_mempool pool other_output 1000 100 1
      let pool ← accept_to_mempool pool spends_other 1000 100 1
      pure ((pool.full_rbf, pool.entries.lookup wide_rival_entry.txid), pool.direct_conflicts wide_rival_entry.tx,
        pool.all_evicted (pool.direct_conflicts wide_rival_entry.tx), (pool.check_rbf wide_rival_entry).toOption) :
          Result ((Bool × Option MempoolEntry) × List Txid × List Txid × Option (List Txid))).toOption =
        some ((true, none), [two_outputs.txid, other_output.txid],
          [two_outputs.txid, spends_first.txid, other_output.txid, spends_other.txid],
          some [two_outputs.txid, spends_first.txid, other_output.txid, spends_other.txid]) := by
    decide +kernel
  obtain ⟨first, hfirst, hrun⟩ := bind_eq_ok_iff.mp (toOption_eq_some hrun)
  obtain ⟨second, hsecond, hrun⟩ := bind_eq_ok_iff.mp hrun
  obtain ⟨third, hthird, hrun⟩ := bind_eq_ok_iff.mp hrun
  obtain ⟨pool, hfourth, hrun⟩ := bind_eq_ok_iff.mp hrun
  have hshown := Except.ok.inj hrun
  simp only [Prod.mk.injEq] at hshown
  obtain ⟨⟨hrbf, hnew⟩, hdirect, hevicted, hcheck⟩ := hshown
  have hcheck := toOption_eq_some hcheck
  have hreached := (((Reached.empty DEFAULT_MIN_RELAY_TX_FEE DEFAULT_MAX_MEMPOOL_SIZE).accept hfirst).accept
    hsecond).accept hthird |>.accept hfourth
  have hindexed : Indexed pool := (hreached.mono fun _ _ hcall => hcall.1).indexed
  have hconflict : Conflicts pool wide_rival_entry.tx two_outputs.txid := by
    rw [← hindexed.mem_direct_conflicts, hdirect]
    exact List.mem_cons_self
  have hother : Conflicts pool wide_rival_entry.tx other_output.txid := by
    rw [← hindexed.mem_direct_conflicts, hdirect]
    exact List.mem_cons_of_mem _ List.mem_cons_self
  have honce : ¬ Repeats pool wide_rival_entry.tx := by
    rw [← hindexed.nodup_all_evicted, hevicted]
    decide +kernel
  refine ⟨pool, hreached, hconflict, hother, hcheck, ?_⟩
  exact (check_rbf_decided_on_set hreached hrbf hnew (by decide) ⟨_, hconflict⟩).mpr fun hboth => honce hboth.1

/-- A transaction that spends the first output of `two_outputs` and that outpoint. -/
def spends_first_and_other : Transaction :=
  .new crypto.sha256d 2 [⟨⟨two_outputs.txid, 0⟩, .new, SEQUENCE_FINAL, .new⟩, ⟨⟨8, 0⟩, .new, SEQUENCE_FINAL, .new⟩]
    [⟨100000, ⟨[0x51]⟩⟩] 0

/-- The entry of `spends_both_outpoints`: the fee is above that of both, and below that of both and the child again. -/
def double_rival_entry : MempoolEntry :=
  { rival_entry with tx := spends_both_outpoints, fee := 2500 }

/-- A replacement that the set of evicted entries permits is refused: the child, a conflict
    itself and a descendant of the other, is counted twice. -/
theorem check_rbf_counts_twice :
    ∃ pool, Reached (fun pool call => call.Covering pool ∧ call.Adds fun _ _ own => 0 ≤ own.2.2) pool ∧
      pool.full_rbf = true ∧ pool.entries.lookup double_rival_entry.txid = none ∧
      (∃ txid, Conflicts pool double_rival_entry.tx txid) ∧ Permitted pool double_rival_entry ∧
      ¬ ∃ evicted, pool.check_rbf double_rival_entry = .ok evicted := by
  have hrun : (do
      let pool ← accept_to_mempool .new two_outputs 1000 100 1
      let pool ← accept_to_mempool pool spends_first_and_other 1000 100 1
      let evicted := pool.all_evicted (pool.direct_conflicts double_rival_entry.tx)
      let relay_fee ← pool.incremental_relay_fee.get_fee double_rival_entry.vsize.toNat
      pure ((pool.full_rbf, pool.entries.lookup double_rival_entry.txid, pool.spenders.lookup ⟨7, 0⟩),
        decide ((∀ input ∈ double_rival_entry.tx.vin, input.prevout.hash ∉ evicted) ∧
          (evicted.dedup.map (own_of pool.entries)).sum = (2, 200, 2000)),
        relay_fee, (pool.check_rbf double_rival_entry).toOption) :
          Result ((Bool × Option MempoolEntry × Option Txid) × Bool × Int × Option (List Txid))).toOption =
        some ((true, none, some two_outputs.txid), true, 100, none) := by
    decide +kernel
  obtain ⟨first, hfirst, hrun⟩ := bind_eq_ok_iff.mp (toOption_eq_some hrun)
  obtain ⟨pool, hsecond, hrun⟩ := bind_eq_ok_iff.mp hrun
  obtain ⟨relay_fee, hrelay, hrun⟩ := bind_eq_ok_iff.mp hrun
  have hshown := Except.ok.inj hrun
  simp only [Prod.mk.injEq, decide_eq_true_iff] at hshown
  obtain ⟨⟨hrbf, hnew, hspender⟩, ⟨hinputs, hweight⟩, rfl, hcheck⟩ := hshown
  have hreached := ((Reached.empty DEFAULT_MIN_RELAY_TX_FEE DEFAULT_MAX_MEMPOOL_SIZE).accept hfirst).accept hsecond
  have hindexed : Indexed pool := (hreached.mono fun _ _ hcall => hcall.1).indexed
  have hset : package pool.entries (Evicted pool double_rival_entry.tx) = (2, 200, 2000) :=
    (hindexed.package_evicted _).trans hweight
  refine ⟨pool, hreached, hrbf, hnew, ?_, ⟨?_, ?_, ?_, 100, hrelay, ?_⟩, ?_⟩
  · refine ⟨two_outputs.txid, ?_⟩
    rw [← hindexed.mem_direct_conflicts, TxMemPool.direct_conflicts_eq, collect.mem_pushes]
    exact .inr (List.mem_filterMap.mpr ⟨⟨⟨7, 0⟩, .new, SEQUENCE_FINAL, .new⟩, List.mem_cons_self, hspender⟩)
  · exact fun input hinput hevicted => hinputs input hinput (hindexed.mem_all_evicted.mpr hevicted)
  · rw [hset]
    decide
  · rw [hset]
    decide
  · rw [hset]
    decide
  · rintro ⟨evicted, hpassed⟩
    rw [hpassed] at hcheck
    cases hcheck

end qubitcoin.mempool
