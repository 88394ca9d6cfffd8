import Qubitcoin.Mempool.Statistics

/-! The package limits: what the check of the parents gives, what it leaves out, and the
    runs in which every entry stays within the limits. -/

open qubitcoin primitives script transaction Relation weight

namespace qubitcoin.mempool

/-- Number and size are at most those of another package. -/
def AtMost (left right : Int × Int × Int) : Prop := left.1 ≤ right.1 ∧ left.2.1 ≤ right.2.1

theorem AtMost.trans {a b c : Int × Int × Int} (hab : AtMost a b) (hbc : AtMost b c) : AtMost a c :=
  ⟨hab.1.trans hbc.1, hab.2.trans hbc.2⟩

theorem AtMost.add {a b : Int × Int × Int} (hab : AtMost a b) (c : Int × Int × Int) : AtMost (a + c) (b + c) :=
  ⟨Int.add_le_add_right hab.1 c.1, Int.add_le_add_right hab.2 c.2.1⟩

def ancestor_limits : Int × Int × Int := (DEFAULT_ANCESTOR_LIMIT, DEFAULT_ANCESTOR_SIZE_LIMIT, 0)

def descendant_limits : Int × Int × Int := (DEFAULT_DESCENDANT_LIMIT, DEFAULT_DESCENDANT_SIZE_LIMIT, 0)

/-- Every entry has no more ancestors and descendants in the pool, itself included, than the
    limits allow, in number and in size. -/
structure WithinLimits (entries : HashMap Txid MempoolEntry) : Prop where
  ancestors : ∀ {txid : Txid} {entry : MempoolEntry}, entries.lookup txid = some entry →
    AtMost (package entries (ReflTransGen (Up entries) txid)) ancestor_limits
  descendants : ∀ {txid : Txid} {entry : MempoolEntry}, entries.lookup txid = some entry →
    AtMost (package entries fun below => ReflTransGen (Up entries) below txid) descendant_limits

/-- The descendant statistics count at least the descendants. -/
def Covered (entries : HashMap Txid MempoolEntry) : Prop :=
  ∀ {txid : Txid} {entry : MempoolEntry}, entries.lookup txid = some entry →
    AtMost (package entries fun below => ReflTransGen (Up entries) below txid) entry.descendants

variable {entries current : HashMap Txid MempoolEntry}

theorem package_mono {P Q : Txid → Prop} (hle : ∀ txid, P txid → Q txid) :
    AtMost (package entries P) (package entries Q) := by
  have hsplit : package entries Q = package entries P + package entries fun txid => Q txid ∧ ¬ P txid := by
    apply total_or
    · intro txid _
      have := hle txid
      tauto
    · exact fun txid _ hP hnot => hnot.2 hP
  obtain ⟨hcount, hsize⟩ := package_nonneg entries fun txid => Q txid ∧ ¬ P txid
  rw [hsplit]
  exact ⟨le_add_of_nonneg_right hcount, le_add_of_nonneg_right hsize⟩

theorem Left.reach_le {done : List Txid} (hleft : Left entries current done) {a b : Txid}
    (hreach : ReflTransGen (Up current) a b) : ReflTransGen (Up entries) a b := by
  have hle : Up current ≤ Up entries := fun _ _ hup => (hleft.up_iff.mp hup).1
  exact ReflTransGen.mono hle a b hreach

theorem Left.withinLimits {done : List Txid} (hleft : Left entries current done) (hlimits : WithinLimits entries) :
    WithinLimits current := by
  refine ⟨?_, ?_⟩
  · intro txid entry hentry
    obtain ⟨_, old, hold, _⟩ := hleft.lookup_eq_some hentry
    rw [hleft.package]
    exact (package_mono fun above habove => hleft.reach_le habove.2).trans (hlimits.ancestors hold)
  · intro txid entry hentry
    obtain ⟨_, old, hold, _⟩ := hleft.lookup_eq_some hentry
    rw [hleft.package]
    exact (package_mono fun below hbelow => hleft.reach_le hbelow.2).trans (hlimits.descendants hold)

theorem Left.append {next : HashMap Txid MempoolEntry} {done more : List Txid} (hleft : Left entries current done)
    (hnext : Left current next more) : Left entries next (done ++ more) where
  gone txid hmem := by
    by_cases hmore : txid ∈ more
    · exact hnext.gone txid hmore
    · have hdone := (List.mem_append.mp hmem).resolve_right hmore
      have hrel := hnext.kept txid hmore
      rw [hleft.gone txid hdone] at hrel
      generalize next.lookup txid = found at hrel ⊢
      cases hrel with
      | none => rfl
  kept txid hmem := by
    rw [List.mem_append, not_or] at hmem
    have hold := hleft.kept txid hmem.1
    have hnew := hnext.kept txid hmem.2
    generalize entries.lookup txid = a at hold ⊢
    generalize current.lookup txid = b at hold hnew
    generalize next.lookup txid = c at hnew ⊢
    cases hold with
    | none =>
      cases hnew with
      | none => exact .none
    | some hold =>
      cases hnew with
      | some hnew => exact .some (hold.trans hnew)

theorem MempoolEntry.remove_descendant_atLeast {vsize : Int} {fee : Amount} {old new : MempoolEntry}
    (hedit : old.remove_descendant vsize fee = .ok new) {rest : Int × Int × Int}
    (hold : AtMost ((1, vsize, fee) + rest) old.descendants) : AtMost rest new.descendants := by
  unfold MempoolEntry.remove_descendant at hedit
  obtain ⟨left, _, hedit⟩ := bind_eq_ok_iff.mp hedit
  cases hedit
  have hcount : 1 + rest.1 ≤ old.descendant_count := hold.1
  have hsize : vsize + rest.2.1 ≤ old.descendant_size := hold.2
  exact ⟨(show rest.1 ≤ old.descendant_count - 1 by omega).trans (le_max_right _ _),
    (show rest.2.1 ≤ old.descendant_size - vsize by omega).trans (le_max_right _ _)⟩

theorem remove_entry_covered {pool after : TxMemPool} (hcovered : Covered pool.entries) {txid : Txid}
    {removed : Option MempoolEntry} (hremove : pool.remove_entry txid = .ok (after, removed)) :
    Covered after.entries ∧ ∃ done, Left pool.entries after.entries done := by
  unfold TxMemPool.remove_entry at hremove
  cases hlookup : pool.entries.lookup txid with
  | none =>
    rw [hlookup] at hremove
    cases hremove
    exact ⟨hcovered, [], .refl _⟩
  | some entry =>
    rw [hlookup] at hremove
    obtain ⟨updated, hfold, hremove⟩ := bind_eq_ok_iff.mp hremove
    cases hremove
    have hleft := (Left.refl pool.entries).erase txid
    have hsame : SameEntries (pool.entries.erase txid) updated :=
      sameEntries_of_update MempoolEntry.remove_descendant_restated collect_ancestors_nodup hfold
    have hleft' := hleft.trans hsame
    refine ⟨?_, _, hleft'⟩
    intro above found hfound
    obtain ⟨hkept, _⟩ := hleft'.lookup_eq_some hfound
    have hne : above ≠ txid := fun heq => hkept (heq ▸ List.mem_singleton_self txid)
    obtain ⟨before, hbefore, _⟩ := hsame.lookup_eq_some hfound
    rw [AList.lookup_erase_ne hne] at hbefore
    have hcounted := hcovered hbefore
    obtain ⟨hother, hedited, _⟩ := update_entries_eq_ok collect_ancestors_nodup hfold above
    dsimp only at hfound ⊢
    rw [hleft'.package]
    by_cases hcollected : above ∈ collect_ancestors_from_entries (pool.entries.erase txid) entry
    · obtain ⟨edited, hedit, hlookup'⟩ := hedited hcollected before ((AList.lookup_erase_ne hne).trans hbefore)
      rw [hlookup'] at hfound
      cases hfound
      have hreach : ReflTransGen (Up pool.entries) txid above := by
        obtain ⟨parent, hspends, hsome, hreach⟩ := mem_collect_ancestors.mp hcollected
        have hparent : parent ∉ [] ++ [txid] := by
          intro hmem
          rw [hleft.gone parent hmem] at hsome
          cases hsome
        rw [hleft.isSome hparent] at hsome
        exact .head (up_iff.mpr ⟨entry, hlookup, hspends, hsome⟩) (hleft.reach_le hreach)
      have hsplit := package_done_append (P := fun below => ReflTransGen (Up pool.entries) below above) hlookup
        List.not_mem_nil hreach
      have hwhole : (package pool.entries fun below => ReflTransGen (Up pool.entries) below above) =
          package pool.entries fun below => below ∉ [] ∧ ReflTransGen (Up pool.entries) below above :=
        total_congr (fun _ _ => by simp) fun _ _ _ => rfl
      rw [hwhole, hsplit] at hcounted
      refine (package_mono ?_).trans (MempoolEntry.remove_descendant_atLeast hedit hcounted)
      exact fun below hbelow => ⟨hbelow.1, hleft'.reach_le hbelow.2⟩
    · rw [hother hcollected, AList.lookup_erase_ne hne, hbefore] at hfound
      cases hfound
      exact (package_mono fun below hbelow => hleft'.reach_le hbelow.2).trans hcounted

theorem remove_entries_covered {txids : List Txid} : ∀ {pool after : TxMemPool} {removed : List Transaction},
    Covered pool.entries → pool.remove_entries txids = .ok (after, removed) →
      Covered after.entries ∧ ∃ done, Left pool.entries after.entries done := by
  induction txids with
  | nil =>
    intro pool after removed hcovered hremove
    cases hremove
    exact ⟨hcovered, [], .refl _⟩
  | cons txid rest ih =>
    intro pool after removed hcovered hremove
    unfold TxMemPool.remove_entries at hremove
    obtain ⟨⟨middle, first⟩, hfirst, hremove⟩ := bind_eq_ok_iff.mp hremove
    obtain ⟨⟨last, others⟩, hrest, hremove⟩ := bind_eq_ok_iff.mp hremove
    cases hremove
    obtain ⟨hmiddle, done, hleft⟩ := remove_entry_covered hcovered hfirst
    obtain ⟨hlast, more, hnext⟩ := ih hmiddle hrest
    exact ⟨hlast, done ++ more, hleft.append hnext⟩

theorem remove_recursive_covered {pool after : TxMemPool} (hcovered : Covered pool.entries) {txid : Txid}
    {removed : List Transaction} (hremove : pool.remove_recursive txid = .ok (after, removed)) :
    Covered after.entries ∧ ∃ done, Left pool.entries after.entries done := by
  unfold TxMemPool.remove_recursive at hremove
  split at hremove
  · exact remove_entries_covered hcovered hremove
  · cases hremove
    exact ⟨hcovered, [], .refl _⟩

theorem remove_all_recursive_covered {txids : List Txid} : ∀ {pool after : TxMemPool}, Covered pool.entries →
    pool.remove_all_recursive txids = .ok after →
      Covered after.entries ∧ ∃ done, Left pool.entries after.entries done := by
  induction txids with
  | nil =>
    intro pool after hcovered hremove
    cases hremove
    exact ⟨hcovered, [], .refl _⟩
  | cons txid rest ih =>
    intro pool after hcovered hremove
    unfold TxMemPool.remove_all_recursive at hremove
    obtain ⟨⟨middle, first⟩, hfirst, hrest⟩ := bind_eq_ok_iff.mp hremove
    obtain ⟨hmiddle, done, hleft⟩ := remove_recursive_covered hcovered hfirst
    obtain ⟨hlast, more, hnext⟩ := ih hmiddle hrest
    exact ⟨hlast, done ++ more, hleft.append hnext⟩

/-- What the check of the parents leaves out: the transaction with its ancestors is within
    the ancestor limits, an ancestor that is not a parent has room for one more descendant,
    and nothing spends the transaction. -/
structure Fits (entries : HashMap Txid MempoolEntry) (tx : Transaction) (vsize : UInt32) : Prop where
  unspent : Unspent entries tx
  ancestors : AtMost ((1, (vsize.toNat : Int), 0) + above_inputs entries tx) ancestor_limits
  descendants : ∀ {above : Txid} {entry : MempoolEntry}, entries.lookup above = some entry →
    AboveInput entries tx above → above ∉ parent_txids entries tx →
    AtMost ((package entries fun below => ReflTransGen (Up entries) below above) + (1, (vsize.toNat : Int), 0))
      descendant_limits

theorem check_inputs_limits_eq_ok {vsize : UInt32} {inputs : List TxIn} {parent : MempoolEntry} {input : TxIn}
    (hcheck : check_inputs_limits entries vsize inputs = .ok ()) (hinput : input ∈ inputs)
    (hparent : entries.lookup input.prevout.hash = some parent) :
    AtMost (parent.descendants + (1, (vsize.toNat : Int), 0)) descendant_limits := by
  induction inputs with
  | nil => cases hinput
  | cons first rest ih =>
    unfold check_inputs_limits at hcheck
    obtain ⟨_, hfirst, hrest⟩ := bind_eq_ok_iff.mp hcheck
    obtain rfl | hinput := List.mem_cons.mp hinput
    · rw [check_input_limits, hparent] at hfirst
      unfold check_parent_limits at hfirst
      obtain ⟨count, hcount, hfirst⟩ := bind_eq_ok_iff.mp hfirst
      obtain ⟨_, hroom, hfirst⟩ := bind_eq_ok_iff.mp hfirst
      obtain ⟨size, hsize, hfirst⟩ := bind_eq_ok_iff.mp hfirst
      obtain ⟨rfl, _⟩ := checked_eq_ok.mp hcount
      obtain ⟨rfl, _⟩ := checked_eq_ok.mp hsize
      rw [require_eq_ok, decide_eq_true_iff] at hroom hfirst
      exact ⟨hroom, hfirst⟩
    · exact ih hrest hinput

def RoomAtParents (entries : HashMap Txid MempoolEntry) (tx : Transaction) (vsize : UInt32) : Prop :=
  ∀ parent ∈ parent_txids entries tx,
    AtMost ((package entries fun below => ReflTransGen (Up entries) below parent) + (1, (vsize.toNat : Int), 0))
      descendant_limits

theorem check_descendant_limits_room {pool : TxMemPool} (hcovered : Covered pool.entries) {entry : MempoolEntry}
    (hcheck : pool.check_descendant_limits entry = .ok ()) {done : List Txid} (hleft : Left pool.entries current done) :
    RoomAtParents current entry.tx entry.vsize := by
  intro parent hparent
  obtain ⟨⟨input, hinput, rfl⟩, hsome⟩ := mem_parent_txids.mp hparent
  obtain ⟨found, hfound⟩ := Option.isSome_iff_exists.mp hsome
  obtain ⟨_, old, hold, _⟩ := hleft.lookup_eq_some hfound
  have hroom := check_inputs_limits_eq_ok hcheck hinput hold
  have hle : AtMost (package current fun below => ReflTransGen (Up current) below input.prevout.hash) old.descendants := by
    rw [hleft.package]
    exact (package_mono fun below hbelow => hleft.reach_le hbelow.2).trans (hcovered hold)
  exact (hle.add _).trans hroom

theorem add_unchecked_withinLimits {pool after : TxMemPool} (hcovered : Covered pool.entries)
    (hlimits : WithinLimits pool.entries) {entry : MempoolEntry} (hfresh : Fresh entry)
    (hfits : Fits pool.entries entry.tx entry.vsize) (hroom : RoomAtParents pool.entries entry.tx entry.vsize)
    {added : Bool} (hadd : pool.add_unchecked entry = .ok (after, added)) :
    Covered after.entries ∧ WithinLimits after.entries := by
  obtain ⟨_, rfl⟩ | ⟨hnew, _⟩ := TxMemPool.add_unchecked_eq_ok hadd
  · exact ⟨hcovered, hlimits⟩
  · obtain ⟨new, hadded⟩ := TxMemPool.add_unchecked_added hfits.unspent hnew hadd
    refine ⟨?_, ?_, ?_⟩
    · intro txid found hfound
      by_cases hcase : txid = entry.txid
      · subst hcase
        rw [hadded.lookup_new] at hfound
        cases hfound
        rw [hadded.below, hadded.descendants, hfresh.descendants]
        exact ⟨le_rfl, le_rfl⟩
      · obtain ⟨old, hold, hextended⟩ := hadded.others hcase hfound
        obtain ⟨extra, _, hdescendants, hbelow⟩ := hextended.below
        rw [hdescendants, hbelow]
        exact (hcovered hold).add extra
    · intro txid found hfound
      by_cases hcase : txid = entry.txid
      · subst hcase
        rw [hadded.above]
        exact hfits.ancestors
      · obtain ⟨old, hold, hextended⟩ := hadded.others hcase hfound
        rw [hextended.above]
        exact hlimits.ancestors hold
    · intro txid found hfound
      by_cases hcase : txid = entry.txid
      · subst hcase
        rw [hadded.below]
        have hpackage := package_nonneg pool.entries (AboveInput pool.entries entry.tx)
        exact ⟨(le_add_of_nonneg_right hpackage.1).trans hfits.ancestors.1,
          (le_add_of_nonneg_right hpackage.2).trans hfits.ancestors.2⟩
      · obtain ⟨old, hold, hextended⟩ := hadded.others hcase hfound
        obtain ⟨extra, hextra, _, hbelow⟩ := hextended.below
        rw [hbelow]
        obtain rfl | ⟨rfl, habove⟩ := hextra
        · rw [add_zero]
          exact hlimits.descendants hold
        · by_cases hparent : txid ∈ parent_txids pool.entries entry.tx
          · exact hroom txid hparent
          · exact hfits.descendants hold habove hparent

theorem TxMemPool.commit_eq_ok {pool after : TxMemPool} {entry : MempoolEntry} {evicted : List Txid} {added : Bool}
    (hcommit : pool.commit entry evicted = .ok (after, added)) :
    ∃ middle, pool.remove_all_recursive evicted = .ok middle ∧ middle.add_unchecked entry = .ok (after, added) := by
  unfold TxMemPool.commit at hcommit
  split at hcommit
  · next hempty =>
    obtain rfl := List.isEmpty_iff.mp hempty
    exact ⟨pool, rfl, hcommit⟩
  · exact bind_eq_ok_iff.mp hcommit

/-- The transaction of an acceptance fits the pool that is left after the evictions. -/
def Operation.Fitting (pool : TxMemPool) : Operation → Prop
  | .accept_to_mempool tx fee vsize height => ∀ entry evicted after,
    pool.check_candidate tx fee vsize height = .ok (entry, evicted) → pool.remove_all_recursive evicted = .ok after →
      Fits after.entries tx vsize
  | _ => False

theorem accept_to_mempool_withinLimits {pool after : TxMemPool} (hcovered : Covered pool.entries)
    (hlimits : WithinLimits pool.entries) {tx : Transaction} {fee : Amount} {vsize : UInt32} {height : Int}
    (hfits : (Operation.accept_to_mempool tx fee vsize height).Fitting pool)
    (haccept : accept_to_mempool pool tx fee vsize height = .ok after) :
    Covered after.entries ∧ WithinLimits after.entries := by
  unfold accept_to_mempool at haccept
  obtain ⟨⟨entry, evicted⟩, hcheck, haccept⟩ := bind_eq_ok_iff.mp haccept
  obtain ⟨⟨committed, added⟩, hcommit, haccept⟩ := bind_eq_ok_iff.mp haccept
  cases haccept
  obtain ⟨_, hentry, _, hroom⟩ := check_candidate_eq_ok hcheck
  obtain ⟨hfresh, rfl, rfl, _⟩ := MempoolEntry.new_eq_ok hentry
  obtain ⟨middle, hremove, hadd⟩ := TxMemPool.commit_eq_ok hcommit
  obtain ⟨hmiddle, done, hleft⟩ := remove_all_recursive_covered hcovered hremove
  exact add_unchecked_withinLimits hmiddle (hleft.withinLimits hlimits) hfresh (hfits entry evicted middle hcheck hremove)
    (check_descendant_limits_room hcovered hroom hleft) hadd

theorem Reachable.covered_withinLimits {pool : TxMemPool}
    (hpool : Reachable (fun pool operation => operation.Fitting pool) pool) :
    Covered pool.entries ∧ WithinLimits pool.entries := by
  induction hpool with
  | empty min_relay_fee max_size =>
    refine ⟨?_, ?_, ?_⟩
    all_goals
      intro txid entry hlookup
      cases hlookup
  | @step pool after operation _ hfits happly ih =>
    cases operation with
    | accept_to_mempool tx fee vsize height => exact accept_to_mempool_withinLimits ih.1 ih.2 hfits happly
    | _ => cases hfits

/-- In a run of acceptances whose transactions fit, every entry is within the limits in every
    state. -/
theorem reachable_withinLimits {pool : TxMemPool} (hpool : Reachable (fun pool operation => operation.Fitting pool) pool) :
    WithinLimits pool.entries :=
  hpool.covered_withinLimits.2

theorem sum_own (listed : List (Σ _ : Txid, MempoolEntry)) :
    (listed.map fun entry : (_ : Txid) × MempoolEntry => entry.2.own).sum.1 = listed.length ∧
      (listed.map fun entry : (_ : Txid) × MempoolEntry => entry.2.own).sum.2.1 = ((listed.map fun entry => entry.2.vsize.toNat).sum : Nat) := by
  induction listed with
  | nil => exact ⟨rfl, rfl⟩
  | cons entry rest ih =>
    rw [List.map_cons, List.sum_cons, List.map_cons, List.sum_cons, List.length_cons, Prod.fst_add, Prod.snd_add,
      Prod.fst_add, ih.1, ih.2]
    push_cast
    exact ⟨add_comm _ _, rfl⟩

theorem package_le_pool (pool : TxMemPool) (P : Txid → Prop) :
    AtMost (package pool.entries P) (pool.entries.keys.length, pool.current_bytes, 0) := by
  have hwhole : package pool.entries (fun _ => True) = (pool.entries.entries.map fun entry => entry.2.own).sum := by
    have hchosen : chosen pool.entries.keys.toFinset (fun _ => True) = pool.entries.keys.toFinset := by
      ext txid
      rw [mem_chosen, and_true]
    unfold package total
    rw [hchosen, List.sum_toFinset _ pool.entries.keys_nodup]
    change ((pool.entries.entries.map Sigma.fst).map (own_of pool.entries)).sum = _
    rw [List.map_map]
    congr 1
    apply List.map_congr_left
    intro entry hentry
    have hlookup : pool.entries.lookup entry.1 = some entry.2 := AList.mem_lookup_iff.mpr hentry
    rw [Function.comp_apply, own_of, hlookup]
  obtain ⟨hcount, hsize⟩ := sum_own pool.entries.entries
  have hmono : AtMost (package pool.entries P) (package pool.entries fun _ => True) := package_mono fun _ _ => trivial
  rw [hwhole] at hmono
  refine ⟨hmono.1.trans_eq ?_, hmono.2.trans_eq hsize⟩
  rw [hcount]
  exact congrArg Nat.cast (@List.length_map _ _ pool.entries.entries Sigma.fst).symm

/-- No entry spends a transaction, and the whole pool with it is within the limits. -/
def Roomy (pool : TxMemPool) (tx : Transaction) (vsize : UInt32) : Prop :=
  (∀ entry ∈ pool.entries.entries, ∀ input ∈ entry.2.tx.vin, input.prevout.hash ≠ tx.txid) ∧
    (∀ input ∈ tx.vin, input.prevout.hash ≠ tx.txid) ∧ pool.entries.keys.length + 1 ≤ 25 ∧
    pool.current_bytes + vsize.toNat ≤ 101000

instance (pool : TxMemPool) (tx : Transaction) (vsize : UInt32) : Decidable (Roomy pool tx vsize) :=
  inferInstanceAs (Decidable (_ ∧ _))

theorem Roomy.fits {pool after : TxMemPool} {tx : Transaction} {vsize : UInt32} (hroomy : Roomy pool tx vsize)
    {done : List Txid} (hleft : Left pool.entries after.entries done) : Fits after.entries tx vsize := by
  obtain ⟨hchildless, hacyclic, hcount, hsize⟩ := hroomy
  have hsmall : ∀ P, AtMost (package after.entries P) (pool.entries.keys.length, pool.current_bytes, 0) := by
    intro P
    rw [hleft.package]
    exact package_le_pool pool _
  have hcount : (pool.entries.keys.length : Int) + 1 ≤ 25 := by exact_mod_cast hcount
  have hsize : (pool.current_bytes : Int) + vsize.toNat ≤ 101000 := by exact_mod_cast hsize
  refine ⟨⟨?_, ?_⟩, ?_, ?_⟩
  · rintro child entry hentry ⟨input, hinput, hspends⟩
    obtain ⟨_, old, hold, hrestated⟩ := hleft.lookup_eq_some hentry
    exact hchildless _ (AList.mem_lookup_iff.mp hold) input (hrestated.tx ▸ hinput) hspends
  · rintro ⟨input, hinput, hspends⟩
    exact hacyclic input hinput hspends
  · rw [add_comm]
    exact ((hsmall _).add _).trans ⟨hcount, hsize⟩
  · intro above entry _ _ _
    exact ((hsmall _).add _).trans ⟨hcount, hsize⟩

theorem Roomy.fitting {pool : TxMemPool} (hpool : Reachable (fun pool operation => operation.Fitting pool) pool)
    {tx : Transaction} {fee : Amount} {vsize : UInt32} {height : Int} (hroomy : Roomy pool tx vsize) :
    (Operation.accept_to_mempool tx fee vsize height).Fitting pool := by
  intro entry evicted after _ hremove
  obtain ⟨_, done, hleft⟩ := remove_all_recursive_covered hpool.covered_withinLimits.1 hremove
  exact hroomy.fits hleft

/-- A transaction that spends the first output of another. -/
def chain_link (prev : Txid) : Transaction :=
  .new crypto.sha256d 2 [⟨⟨prev, 0⟩, .new, SEQUENCE_FINAL, .new⟩] [⟨100000, ⟨[0x51]⟩⟩] 0

/-- Accept a chain of transactions of some sizes, each with a fee of 100000. -/
def accept_chain : List UInt32 → Txid → TxMemPool → Result TxMemPool
  | [], _, pool => .ok pool
  | vsize :: rest, prev, pool => do
    let pool ← accept_to_mempool pool (chain_link prev) 100000 vsize 1
    accept_chain rest (chain_link prev).txid pool

def chain_end : Nat → Txid → Txid
  | 0, prev => prev
  | n + 1, prev => chain_end n (chain_link prev).txid

/-- A transaction of 100, one of 200 and one of 300 virtual bytes, each of which spends the one before. -/
theorem reachable_withinLimits_chain :
    ∃ pool, Reachable (fun pool operation => operation.Fitting pool) pool ∧
      ReflTransGen (Up pool.entries) (chain_end 3 7) (chain_end 1 7) ∧ pool.entries.keys.length = 3 ∧
      WithinLimits pool.entries := by
  have hrun : (do
      let first ← accept_to_mempool .new (chain_link 7) 1000 100 1
      let second ← accept_to_mempool first (chain_link (chain_end 1 7)) 2000 200 1
      let third ← accept_to_mempool second (chain_link (chain_end 2 7)) 3000 300 1
      pure (decide (Roomy .new (chain_link 7) 100 ∧ Roomy first (chain_link (chain_end 1 7)) 200 ∧
          Roomy second (chain_link (chain_end 2 7)) 300 ∧ third.entries.keys.length = 3),
        (third.entries.lookup (chain_end 3 7)).map fun last =>
          decide (chain_end 1 7 ∈ collect_ancestors_from_entries third.entries last)) :
        Result (Bool × Option Bool)).toOption = some (true, some true) := by
    decide +kernel
  obtain ⟨first, hfirst, hrun⟩ := bind_eq_ok_iff.mp (toOption_eq_some hrun)
  obtain ⟨second, hsecond, hrun⟩ := bind_eq_ok_iff.mp hrun
  obtain ⟨pool, hthird, hrun⟩ := bind_eq_ok_iff.mp hrun
  obtain ⟨hroomy, hlast⟩ := Prod.mk.inj (Except.ok.inj hrun)
  obtain ⟨hroomy, hroomy_first, hroomy_second, hlength⟩ := decide_eq_true_iff.mp hroomy
  obtain ⟨last, hlast, hcollected⟩ := Option.map_eq_some_iff.mp hlast
  have hfirst : (Operation.accept_to_mempool (chain_link 7) 1000 100 1).apply .new = .ok first := hfirst
  have hsecond : (Operation.accept_to_mempool (chain_link (chain_end 1 7)) 2000 200 1).apply first = .ok second := hsecond
  have hthird : (Operation.accept_to_mempool (chain_link (chain_end 2 7)) 3000 300 1).apply second = .ok pool := hthird
  have hempty : Reachable (fun pool operation => Operation.Fitting pool operation) .new :=
    .empty DEFAULT_MIN_RELAY_TX_FEE DEFAULT_MAX_MEMPOOL_SIZE
  have hone := hempty.step (hroomy.fitting hempty) hfirst
  have htwo := hone.step (hroomy_first.fitting hone) hsecond
  have hthree := htwo.step (hroomy_second.fitting htwo) hthird
  obtain ⟨parent, hspends, hsome, hreach⟩ := mem_collect_ancestors.mp (decide_eq_true_iff.mp hcollected)
  exact ⟨pool, hthree, .head (up_iff.mpr ⟨last, hlast, hspends, hsome⟩) hreach, hlength, reachable_withinLimits hthree⟩

/-- An acceptance, of any transaction. -/
def Operation.Acceptance : Operation → Prop
  | .accept_to_mempool _ _ _ _ => True
  | _ => False

theorem accept_chain_reachable {sizes : List UInt32} : ∀ {prev : Txid} {pool after : TxMemPool},
    Reachable (fun _ operation => operation.Acceptance) pool → accept_chain sizes prev pool = .ok after →
      Reachable (fun _ operation => operation.Acceptance) after := by
  induction sizes with
  | nil =>
    intro prev pool after hpool haccept
    cases haccept
    exact hpool
  | cons vsize rest ih =>
    intro prev pool after hpool haccept
    obtain ⟨middle, hfirst, hrest⟩ := bind_eq_ok_iff.mp haccept
    have hacceptance : (Operation.accept_to_mempool (chain_link prev) 100000 vsize 1).Acceptance := trivial
    exact ih (hpool.step hacceptance hfirst) hrest

theorem pair_le_package {P : Txid → Prop} {first last : Txid} {above below : MempoolEntry}
    (habove : entries.lookup first = some above) (hbelow : entries.lookup last = some below) (hne : last ≠ first)
    (hfirst : P first) (hlast : P last) : AtMost (above.own + below.own) (package entries P) := by
  have hmem : ∀ {txid : Txid} {entry : MempoolEntry}, entries.lookup txid = some entry → txid ∈ entries.keys.toFinset := by
    intro txid entry hentry
    exact List.mem_toFinset.mpr (mem_keys_iff.mpr (by rw [hentry]; rfl))
  have hwithout : own_of entries first + package entries (fun txid => txid ≠ first ∧ P txid) = package entries P :=
    add_total_ne (hmem habove) hfirst
  have hneither : own_of entries last + package entries (fun txid => txid ≠ last ∧ txid ≠ first ∧ P txid) =
      package entries fun txid => txid ≠ first ∧ P txid :=
    add_total_ne (hmem hbelow) ⟨hne, hlast⟩
  obtain ⟨hcount, hsize⟩ := package_nonneg entries fun txid => txid ≠ last ∧ txid ≠ first ∧ P txid
  have hown : own_of entries first = above.own ∧ own_of entries last = below.own := by
    unfold own_of
    rw [habove, hbelow]
    exact ⟨rfl, rfl⟩
  rw [← hwithout, ← hneither, ← add_assoc, hown.1, hown.2]
  exact ⟨le_add_of_nonneg_right hcount, le_add_of_nonneg_right hsize⟩

/-- A chain of 60000, 100 and 60000 virtual bytes is accepted, of which the last transaction is over the
    limit on the size of its ancestors. -/
theorem chain_over_limit :
    ∃ pool, Reachable (fun _ operation => operation.Acceptance) pool ∧ ¬ WithinLimits pool.entries := by
  have hrun : ((accept_chain [60000, 100, 60000] 7 .new).toOption.map fun pool =>
      (pool.entries.lookup (chain_end 1 7)).bind fun first => (pool.entries.lookup (chain_end 3 7)).map fun last =>
        (first.vsize, last.vsize, decide (chain_end 1 7 ∈ collect_ancestors_from_entries pool.entries last),
          decide (chain_end 3 7 = chain_end 1 7))) = some (some (60000, 60000, true, false)) := by
    decide +kernel
  obtain ⟨pool, hpool, hentries⟩ := Option.map_eq_some_iff.mp hrun
  obtain ⟨first, hfirst, hentries⟩ := Option.bind_eq_some_iff.mp hentries
  obtain ⟨last, hlast, hentries⟩ := Option.map_eq_some_iff.mp hentries
  simp only [Prod.mk.injEq, decide_eq_true_iff, decide_eq_false_iff_not] at hentries
  obtain ⟨hfirst_size, hlast_size, hcollected, hne⟩ := hentries
  have haccepted : accept_chain [60000, 100, 60000] 7 .new = .ok pool := by
    cases haccept : accept_chain [60000, 100, 60000] 7 .new with
    | error _ =>
      rw [haccept] at hpool
      cases hpool
    | ok accepted =>
      rw [haccept] at hpool
      cases hpool
      rfl
  refine ⟨pool, accept_chain_reachable (.empty _ _) haccepted, ?_⟩
  intro hlimits
  have habove : ReflTransGen (Up pool.entries) (chain_end 3 7) (chain_end 1 7) := by
    obtain ⟨parent, hspends, hsome, hreach⟩ := mem_collect_ancestors.mp hcollected
    exact .head (up_iff.mpr ⟨last, hlast, hspends, hsome⟩) hreach
  have hle := ((pair_le_package hfirst hlast hne habove .refl).trans (hlimits.ancestors hlast)).2
  unfold MempoolEntry.own at hle
  rw [hfirst_size, hlast_size] at hle
  change (60000 + 60000 : Int) ≤ 101000 at hle
  exact absurd hle (by decide)

end qubitcoin.mempool
