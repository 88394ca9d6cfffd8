import Qubitcoin.Mempool.Accept
import Qubitcoin.Lib.Weight
import Mathlib.Algebra.Group.Prod

/-! Packages: the ancestors and descendants of the pool's entries, and what an addition
    and a removal do to the statistics about them. -/

open qubitcoin primitives transaction Relation weight

namespace qubitcoin.mempool

/-- A transaction spends an output of another, given by its id. -/
def Spends (tx : Transaction) (txid : Txid) : Prop := ∃ input ∈ tx.vin, input.prevout.hash = txid

/-- An entry of the pool has another one for a parent. -/
def Up (entries : HashMap Txid MempoolEntry) : Txid → Txid → Prop := reach.Leads (entry_parents entries)

/-- Number, size and fee of an entry alone. -/
def MempoolEntry.own (self : MempoolEntry) : Int × Int × Int := (1, self.vsize.toNat, self.fee)

def MempoolEntry.ancestors (self : MempoolEntry) : Int × Int × Int :=
  (self.ancestor_count, self.ancestor_size, self.ancestor_fee)

def MempoolEntry.descendants (self : MempoolEntry) : Int × Int × Int :=
  (self.descendant_count, self.descendant_size, self.descendant_fee)

def own_of (entries : HashMap Txid MempoolEntry) (txid : Txid) : Int × Int × Int :=
  match entries.lookup txid with
  | some entry => entry.own
  | none => 0

/-- Number, size and fees of the entries with a property. -/
noncomputable def package (entries : HashMap Txid MempoolEntry) (P : Txid → Prop) : Int × Int × Int :=
  total entries.keys.toFinset (own_of entries) P

/-- The statistics of every entry are those of its ancestors and of its descendants in the
    pool, each counted once, and itself included. -/
structure Exact (entries : HashMap Txid MempoolEntry) : Prop where
  ancestors : ∀ {txid : Txid} {entry : MempoolEntry}, entries.lookup txid = some entry →
    entry.ancestors = package entries (ReflTransGen (Up entries) txid)
  descendants : ∀ {txid : Txid} {entry : MempoolEntry}, entries.lookup txid = some entry →
    entry.descendants = package entries fun below => ReflTransGen (Up entries) below txid

theorem exact_empty : Exact ∅ :=
  ⟨fun hlookup => by simp at hlookup, fun hlookup => by simp at hlookup⟩

variable {entries : HashMap Txid MempoolEntry}

theorem mem_parent_txids {tx : Transaction} {parent : Txid} :
    parent ∈ parent_txids entries tx ↔ Spends tx parent ∧ (entries.lookup parent).isSome := by
  unfold parent_txids Spends
  rw [List.mem_filter, List.mem_map]

theorem up_iff {child parent : Txid} : Up entries child parent ↔
    ∃ entry, entries.lookup child = some entry ∧ Spends entry.tx parent ∧ (entries.lookup parent).isSome := by
  unfold Up reach.Leads entry_parents
  cases hchild : entries.lookup child with
  | none => simp
  | some entry => simp [mem_parent_txids]

theorem mem_keys_iff {txid : Txid} : txid ∈ entries.keys ↔ (entries.lookup txid).isSome :=
  AList.lookup_isSome.symm

theorem mem_collect_ancestors {entry : MempoolEntry} {txid : Txid} :
    txid ∈ collect_ancestors_from_entries entries entry ↔
      ∃ parent, Spends entry.tx parent ∧ (entries.lookup parent).isSome ∧ ReflTransGen (Up entries) parent txid := by
  have hclosed : ∀ child ∈ entries.keys, entry_parents entries child ⊆ entries.keys := by
    intro child _ parent hparent
    obtain ⟨_, _, _, hsome⟩ := up_iff.mp hparent
    exact mem_keys_iff.mpr hsome
  have hstart : (parent_txids entries entry.tx).reverse ⊆ entries.keys := by
    intro parent hparent
    exact mem_keys_iff.mpr (mem_parent_txids.mp (List.mem_reverse.mp hparent)).2
  unfold collect_ancestors_from_entries input_count
  dsimp only
  rw [reach.mem_search_iff (entry_parents entries) entries.keys_nodup hclosed hstart le_rfl]
  constructor
  · rintro ⟨parent, hparent, hreach⟩
    obtain ⟨hspends, hsome⟩ := mem_parent_txids.mp (List.mem_reverse.mp hparent)
    exact ⟨parent, hspends, hsome, hreach⟩
  · rintro ⟨parent, hspends, hsome, hreach⟩
    exact ⟨parent, List.mem_reverse.mpr (mem_parent_txids.mpr ⟨hspends, hsome⟩), hreach⟩

theorem collect_ancestors_nodup {entry : MempoolEntry} : (collect_ancestors_from_entries entries entry).Nodup :=
  reach.search_nodup _ _ _ _ List.nodup_nil

theorem update_entries_eq_ok {edit : MempoolEntry → Result MempoolEntry} {txids : List Txid} (hnodup : txids.Nodup) :
    ∀ {entries updated : HashMap Txid MempoolEntry}, txids.foldlM (update_entry edit) entries = .ok updated →
      ∀ txid, (txid ∉ txids → updated.lookup txid = entries.lookup txid) ∧
        (txid ∈ txids → ∀ entry, entries.lookup txid = some entry →
          ∃ edited, edit entry = .ok edited ∧ updated.lookup txid = some edited) ∧
        (entries.lookup txid = none → updated.lookup txid = none) := by
  induction txids with
  | nil =>
    intro entries updated hfold txid
    cases hfold
    exact ⟨fun _ => rfl, nofun, id⟩
  | cons first rest ih =>
    intro entries updated hfold txid
    obtain ⟨hnot, hnodup⟩ := List.nodup_cons.mp hnodup
    rw [List.foldlM_cons] at hfold
    obtain ⟨middle, hmiddle, hfold⟩ := bind_eq_ok_iff.mp hfold
    obtain ⟨hother, hedited, hnone⟩ := ih hnodup hfold txid
    unfold update_entry at hmiddle
    cases hfirst : entries.lookup first with
    | none =>
      rw [hfirst] at hmiddle
      cases hmiddle
      refine ⟨fun hmem => hother fun hrest => hmem (List.mem_cons_of_mem first hrest), ?_, hnone⟩
      intro hmem entry hentry
      obtain rfl | hmem := List.mem_cons.mp hmem
      · rw [hfirst] at hentry
        cases hentry
      · exact hedited hmem entry hentry
    | some old =>
      rw [hfirst] at hmiddle
      obtain ⟨new, hnew, hmiddle⟩ := bind_eq_ok_iff.mp hmiddle
      cases hmiddle
      by_cases hsame : txid = first
      · subst hsame
        have hlookup : updated.lookup txid = some new := by rw [hother hnot, AList.lookup_insert]
        refine ⟨fun hmem => absurd List.mem_cons_self hmem, ?_, ?_⟩
        · intro _ entry hentry
          rw [hfirst] at hentry
          cases hentry
          exact ⟨new, hnew, hlookup⟩
        · intro hnone
          rw [hfirst] at hnone
          cases hnone
      · rw [AList.lookup_insert_ne hsame] at hother hedited hnone
        refine ⟨fun hmem => hother fun hrest => hmem (List.mem_cons_of_mem first hrest), ?_, hnone⟩
        intro hmem entry hentry
        exact hedited ((List.mem_cons.mp hmem).resolve_left hsame) entry hentry

/-- An edit of an entry that leaves its transaction and its ancestor statistics alone. -/
structure Restated (old new : MempoolEntry) : Prop where
  tx : new.tx = old.tx
  own : new.own = old.own
  ancestors : new.ancestors = old.ancestors

theorem Restated.refl (entry : MempoolEntry) : Restated entry entry := ⟨rfl, rfl, rfl⟩

theorem MempoolEntry.add_descendant_eq_ok {our_vsize : Int} {our_fee : Amount} {old new : MempoolEntry}
    (hedit : old.add_descendant our_vsize our_fee = .ok new) :
    Restated old new ∧ new.descendants = old.descendants + (1, our_vsize, our_fee) := by
  unfold MempoolEntry.add_descendant at hedit
  obtain ⟨count, hcount, hedit⟩ := bind_eq_ok_iff.mp hedit
  obtain ⟨size, hsize, hedit⟩ := bind_eq_ok_iff.mp hedit
  obtain ⟨fee, hfee, hedit⟩ := bind_eq_ok_iff.mp hedit
  cases hedit
  obtain ⟨rfl, _⟩ := checked_eq_ok.mp hcount
  obtain ⟨rfl, _⟩ := checked_eq_ok.mp hsize
  obtain ⟨rfl, _⟩ := checked_eq_ok.mp hfee
  exact ⟨⟨rfl, rfl, rfl⟩, rfl⟩

theorem MempoolEntry.remove_descendant_eq_ok {vsize : Int} {fee : Amount} {old new : MempoolEntry}
    (hedit : old.remove_descendant vsize fee = .ok new) {rest : Int × Int × Int} (hcounted : 0 ≤ rest.1 ∧ 0 ≤ rest.2.1)
    (hold : old.descendants = (1, vsize, fee) + rest) : Restated old new ∧ new.descendants = rest := by
  unfold MempoolEntry.remove_descendant at hedit
  obtain ⟨left, hleft, hedit⟩ := bind_eq_ok_iff.mp hedit
  cases hedit
  obtain ⟨rfl, _⟩ := checked_eq_ok.mp hleft
  obtain ⟨count, size, fees⟩ := rest
  refine ⟨⟨rfl, rfl, rfl⟩, ?_⟩
  have hcount : old.descendant_count = 1 + count := congrArg Prod.fst hold
  have hsize : old.descendant_size = vsize + size := congrArg (fun stats => stats.2.1) hold
  have hfees : old.descendant_fee = fee + fees := congrArg (fun stats => stats.2.2) hold
  unfold MempoolEntry.descendants
  dsimp only at hcounted ⊢
  rw [hcount, hsize, hfees, add_sub_cancel_left, add_sub_cancel_left, add_sub_cancel_left, max_eq_right hcounted.1,
    max_eq_right hcounted.2]

theorem MempoolEntry.remove_descendant_restated {vsize : Int} {fee : Amount} {old new : MempoolEntry}
    (hedit : old.remove_descendant vsize fee = .ok new) : Restated old new := by
  unfold MempoolEntry.remove_descendant at hedit
  obtain ⟨left, _, hedit⟩ := bind_eq_ok_iff.mp hedit
  cases hedit
  exact ⟨rfl, rfl, rfl⟩

/-- Two pools with the same transactions at the same ids. -/
def SameEntries (left right : HashMap Txid MempoolEntry) : Prop :=
  ∀ txid, Option.Rel Restated (left.lookup txid) (right.lookup txid)

section

variable {left right : HashMap Txid MempoolEntry} (hsame : SameEntries left right)

include hsame

theorem SameEntries.isSome (txid : Txid) : (right.lookup txid).isSome = (left.lookup txid).isSome := by
  have hrel := hsame txid
  generalize left.lookup txid = old at hrel ⊢
  generalize right.lookup txid = new at hrel ⊢
  cases hrel with
  | none => rfl
  | some _ => rfl

theorem SameEntries.lookup_eq_some {txid : Txid} {new : MempoolEntry} (hnew : right.lookup txid = some new) :
    ∃ old, left.lookup txid = some old ∧ Restated old new := by
  have hrel := hsame txid
  rw [hnew] at hrel
  cases hold : left.lookup txid with
  | none =>
    rw [hold] at hrel
    cases hrel
  | some old =>
    rw [hold] at hrel
    cases hrel with
    | some hrestated => exact ⟨old, rfl, hrestated⟩

theorem SameEntries.keys : right.keys.toFinset = left.keys.toFinset := by
  ext txid
  rw [List.mem_toFinset, List.mem_toFinset, mem_keys_iff, mem_keys_iff, hsame.isSome]

theorem SameEntries.own_of : own_of right = own_of left := by
  funext txid
  have hrel := hsame txid
  unfold mempool.own_of
  generalize left.lookup txid = old at hrel ⊢
  generalize right.lookup txid = new at hrel ⊢
  cases hrel with
  | none => rfl
  | some hrestated => exact hrestated.own

end

theorem sameEntries_of_update {edit : MempoolEntry → Result MempoolEntry}
    (hedit : ∀ {old new : MempoolEntry}, edit old = .ok new → Restated old new) {txids : List Txid} (hnodup : txids.Nodup)
    {updated : HashMap Txid MempoolEntry} (hfold : txids.foldlM (update_entry edit) entries = .ok updated) :
    SameEntries entries updated := by
  intro txid
  obtain ⟨hother, hedited, hnone⟩ := update_entries_eq_ok hnodup hfold txid
  cases hlookup : entries.lookup txid with
  | none =>
    rw [hnone hlookup]
    exact .none
  | some old =>
    by_cases hmem : txid ∈ txids
    · obtain ⟨new, hnew, hupdated⟩ := hedited hmem old hlookup
      rw [hupdated]
      exact .some (hedit hnew)
    · rw [hother hmem, hlookup]
      exact .some (.refl old)

end qubitcoin.mempool
