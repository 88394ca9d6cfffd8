import Qubitcoin.Coins.View
import Mathlib.Algebra.BigOperators.Finprod

/-! Transactions applied to a plain outpoint-to-coin map, and the coins cache
    under the same loops. -/

open qubitcoin primitives transaction

namespace qubitcoin.coins

def CoinsMap.spend_all (coins : CoinsMap) : List OutPoint → CoinsMap
  | [] => coins
  | outpoint :: rest => CoinsMap.spend_all (Function.update coins outpoint none) rest

/-- Add the spendable ones of a list of outputs. -/
def CoinsMap.add_all (height : UInt32) (is_coinbase : Bool) (coins : CoinsMap) :
    List (OutPoint × TxOut) → CoinsMap
  | [] => coins
  | (outpoint, output) :: rest =>
    CoinsMap.add_all height is_coinbase
      (if output.script_pubkey.is_unspendable then coins
        else Function.update coins outpoint (some ⟨output, height, is_coinbase⟩)) rest

/-- Spend every input, unless it is a coinbase, and add every spendable output. -/
def CoinsMap.apply_tx (height : UInt32) (coins : CoinsMap) (tx : Transaction) : CoinsMap :=
  CoinsMap.add_all height tx.is_coinbase
    (if tx.is_coinbase then coins else coins.spend_all (tx.vin.map TxIn.prevout)) (outpoints tx)

def CoinsMap.apply_txs (height : UInt32) (coins : CoinsMap) (txs : List Transaction) : CoinsMap :=
  txs.foldl (CoinsMap.apply_tx height) coins

@[simp] theorem CoinsMap.apply_txs_nil (height : UInt32) (coins : CoinsMap) :
    coins.apply_txs height [] = coins := rfl

@[simp] theorem CoinsMap.apply_txs_cons (height : UInt32) (coins : CoinsMap) (tx : Transaction)
    (rest : List Transaction) :
    coins.apply_txs height (tx :: rest) = (coins.apply_tx height tx).apply_txs height rest := rfl

theorem CoinsMap.spend_all_apply (coins : CoinsMap) (spent : List OutPoint) (query : OutPoint) :
    coins.spend_all spent query = if query ∈ spent then none else coins query := by
  induction spent generalizing coins with
  | nil => simp [CoinsMap.spend_all]
  | cons outpoint rest ih =>
    rw [CoinsMap.spend_all, ih, Function.update_apply]
    by_cases hrest : query ∈ rest <;> by_cases heq : query = outpoint <;> simp [hrest, heq]

theorem CoinsMap.add_all_of_not_mem {height : UInt32} {is_coinbase : Bool} {coins : CoinsMap}
    {outputs : List (OutPoint × TxOut)} {query : OutPoint} (hmem : query ∉ outputs.map Prod.fst) :
    coins.add_all height is_coinbase outputs query = coins query := by
  induction outputs generalizing coins with
  | nil => rfl
  | cons entry rest ih =>
    obtain ⟨outpoint, output⟩ := entry
    simp only [List.map_cons, List.mem_cons, not_or] at hmem
    rw [CoinsMap.add_all, ih hmem.2]
    split
    · rfl
    · exact Function.update_of_ne hmem.1 _ _

theorem CoinsMap.add_all_of_mem {height : UInt32} {is_coinbase : Bool} {outputs : List (OutPoint × TxOut)}
    (hnodup : (outputs.map Prod.fst).Nodup) {outpoint : OutPoint} {output : TxOut}
    (hmem : (outpoint, output) ∈ outputs) :
    ∀ coins : CoinsMap, coins.add_all height is_coinbase outputs outpoint =
      if output.script_pubkey.is_unspendable then coins outpoint else some ⟨output, height, is_coinbase⟩ := by
  induction outputs with
  | nil => cases hmem
  | cons entry rest ih =>
    intro coins
    rw [List.map_cons, List.nodup_cons] at hnodup
    rcases List.mem_cons.mp hmem with rfl | hmem
    · rw [CoinsMap.add_all, CoinsMap.add_all_of_not_mem hnodup.1]
      split
      · rfl
      · exact Function.update_self ..
    · have hne : outpoint ≠ entry.1 := fun heq =>
        hnodup.1 (List.mem_map.mpr ⟨(outpoint, output), hmem, heq⟩)
      rw [CoinsMap.add_all, ih hnodup.2 hmem]
      split
      · split
        · rfl
        · exact Function.update_of_ne hne _ _
      · rfl

theorem outpoints_hash {tx : Transaction} {entry : OutPoint × TxOut} (hmem : entry ∈ outpoints tx) :
    entry.1.hash = tx.txid := by
  obtain ⟨⟨output, i⟩, _, rfl⟩ := List.mem_map.mp hmem
  rfl

theorem outpoints_output {tx : Transaction} {entry : OutPoint × TxOut} (hmem : entry ∈ outpoints tx) :
    entry.2 ∈ tx.vout := by
  obtain ⟨⟨output, i⟩, hpair, rfl⟩ := List.mem_map.mp hmem
  exact List.fst_mem_of_mem_zipIdx hpair

theorem outpoints_nodup {tx : Transaction} (hlength : tx.vout.length < 2 ^ 32) :
    ((outpoints tx).map Prod.fst).Nodup := by
  have heq : (outpoints tx).map Prod.fst =
      (List.range tx.vout.length).map fun i => (⟨tx.txid, UInt32.ofNat i⟩ : OutPoint) := by
    unfold outpoints
    rw [List.map_map, List.range_eq_range', ← List.zipIdx_map_snd 0 tx.vout, List.map_map]
    rfl
  rw [heq]
  refine List.Nodup.map_on ?_ List.nodup_range
  intro i hi j hj hij
  rw [List.mem_range] at hi hj
  have hn : UInt32.ofNat i = UInt32.ofNat j := congrArg OutPoint.n hij
  have := congrArg UInt32.toNat hn
  rw [UInt32.toNat_ofNat_of_lt' (by exact hi.trans hlength), UInt32.toNat_ofNat_of_lt' (by exact hj.trans hlength)] at this
  exact this

theorem add_outputs_cons {height : UInt32} {is_coinbase check_for_overwrite : Bool} {outpoint : OutPoint}
    {output : TxOut} {rest : List (OutPoint × TxOut)} {view after : CoinsViewCache}
    (hadd : add_outputs height is_coinbase check_for_overwrite ((outpoint, output) :: rest) view = .ok after) :
    ∃ read overwrite mid, view.ReadsTo read ∧
      read.add_coin outpoint (.new output height is_coinbase) overwrite = .ok mid ∧
      add_outputs height is_coinbase check_for_overwrite rest mid = .ok after := by
  unfold add_outputs at hadd
  cases check_for_overwrite with
  | false =>
    obtain ⟨mid, hmid, hrest⟩ := bind_eq_ok_iff.mp hadd
    exact ⟨view, is_coinbase, mid, .refl view, hmid, hrest⟩
  | true =>
    obtain ⟨mid, hmid, hrest⟩ := bind_eq_ok_iff.mp hadd
    exact ⟨(view.fetch_coin outpoint).2, _, mid, view.fetch_coin_reads outpoint, hmid, hrest⟩

/-- The cache under the output loop: the visible map gets the outputs, and the
    flag invariant is kept when no output is added past a coin of the base. -/
theorem add_outputs_spec {height : UInt32} {is_coinbase check_for_overwrite : Bool}
    {outputs : List (OutPoint × TxOut)} :
    ∀ {view after : CoinsViewCache}, add_outputs height is_coinbase check_for_overwrite outputs view = .ok after →
      after.visible = CoinsMap.add_all height is_coinbase view.visible outputs ∧ after.base = view.base ∧
      (∀ {outpoint}, view.SeesParent outpoint → after.SeesParent outpoint) ∧
      (view.Coherent → (∀ entry ∈ outputs, entry.2.script_pubkey.is_unspendable = false →
        view.SeesParent entry.1) → after.Coherent) := by
  induction outputs with
  | nil =>
    intro view after hadd
    cases hadd
    exact ⟨rfl, rfl, id, fun hcoherent _ => hcoherent⟩
  | cons entry rest ih =>
    obtain ⟨outpoint, output⟩ := entry
    intro view after hadd
    obtain ⟨read, overwrite, mid, hreads, hmid, hrest⟩ := add_outputs_cons hadd
    obtain ⟨hvisible, hbase⟩ := CoinsViewCache.add_coin_visible hmid
    obtain ⟨hvisible_rest, hbase_rest, hparent_rest, hcoherent_rest⟩ := ih hrest
    have hparent_mid : ∀ {query}, view.SeesParent query → mid.SeesParent query :=
      fun hparent => CoinsViewCache.add_coin_sees_parent hmid (hreads.sees_parent hparent)
    refine ⟨?_, (hbase_rest.trans hbase).trans hreads.base, ?_, ?_⟩
    · rw [hvisible_rest, hvisible, hreads.visible]
      rfl
    · exact fun hparent => hparent_rest (hparent_mid hparent)
    · intro hcoherent hparents
      refine hcoherent_rest ((hreads.coherent hcoherent).add_coin hmid fun hspendable =>
        hreads.sees_parent (hparents (outpoint, output) (by simp) hspendable)) ?_
      intro entry hmem hspendable
      exact hparent_mid (hparents entry (List.mem_cons_of_mem _ hmem) hspendable)

end qubitcoin.coins

namespace qubitcoin.coins

def value_of : Option Coin → Int
  | some coin => coin.tx_out.value
  | none => 0

noncomputable def CoinsMap.total (coins : CoinsMap) : Int := finsum fun outpoint => value_of (coins outpoint)

def CoinsMap.Finite (coins : CoinsMap) : Prop := {outpoint | coins outpoint ≠ none}.Finite

theorem CoinsMap.Finite.support {coins : CoinsMap} (hfinite : coins.Finite) :
    (Function.support fun outpoint => value_of (coins outpoint)).Finite := by
  refine hfinite.subset fun outpoint hvalue hnone => hvalue ?_
  exact congrArg value_of hnone

theorem CoinsMap.Finite.update {coins : CoinsMap} (hfinite : coins.Finite) (outpoint : OutPoint)
    (coin : Option Coin) : CoinsMap.Finite (Function.update coins outpoint coin) := by
  refine (hfinite.insert outpoint).subset fun query hquery => ?_
  by_cases heq : query = outpoint
  · exact Set.mem_insert_iff.mpr (.inl heq)
  · refine Set.mem_insert_of_mem _ ?_
    rwa [Set.mem_ofPred_eq, Function.update_of_ne heq] at hquery

theorem CoinsMap.Finite.total_update {coins : CoinsMap} (hfinite : coins.Finite) (outpoint : OutPoint)
    (coin : Option Coin) :
    CoinsMap.total (Function.update coins outpoint coin) =
      coins.total - value_of (coins outpoint) + value_of coin := by
  let change : OutPoint → Int := fun query =>
    if query = outpoint then value_of coin - value_of (coins outpoint) else 0
  have hsplit : (fun query => value_of (Function.update coins outpoint coin query)) =
      fun query => value_of (coins query) + change query := by
    funext query
    by_cases heq : query = outpoint
    · subst heq
      simp [change]
    · simp [change, heq]
  have hchange : finsum change = value_of coin - value_of (coins outpoint) := by
    rw [finsum_eq_single change outpoint fun query hne => if_neg hne]
    exact if_pos rfl
  have hsupport : (Function.support change).Finite :=
    (Set.finite_singleton outpoint).subset fun query hquery => by
      by_contra hne
      exact hquery (if_neg hne)
  unfold CoinsMap.total
  rw [hsplit, finsum_add_distrib hfinite.support hsupport, hchange]
  ring

theorem CoinsMap.Finite.spend_all {spent : List OutPoint} :
    ∀ {coins : CoinsMap}, coins.Finite → (coins.spend_all spent).Finite := by
  induction spent with
  | nil => exact fun hfinite => hfinite
  | cons outpoint rest ih => exact fun hfinite => ih (hfinite.update outpoint none)

theorem CoinsMap.Finite.total_spend_all {spent : List OutPoint} (hnodup : spent.Nodup) :
    ∀ {coins : CoinsMap}, coins.Finite →
      (coins.spend_all spent).total = coins.total - (spent.map fun outpoint => value_of (coins outpoint)).sum := by
  induction spent with
  | nil =>
    intro coins _
    simp [CoinsMap.spend_all]
  | cons outpoint rest ih =>
    intro coins hfinite
    rw [List.nodup_cons] at hnodup
    have hsame : (rest.map fun query => value_of (Function.update coins outpoint none query)) =
        rest.map fun query => value_of (coins query) := by
      refine List.map_congr_left fun query hmem => ?_
      have hne : query ≠ outpoint := fun heq => hnodup.1 (heq ▸ hmem)
      rw [Function.update_of_ne hne]
    rw [CoinsMap.spend_all, ih hnodup.2 (hfinite.update outpoint none), hfinite.total_update, hsame,
      List.map_cons, List.sum_cons]
    simp only [value_of]
    ring

theorem CoinsMap.Finite.total_add_all {height : UInt32} {is_coinbase : Bool} {outputs : List (OutPoint × TxOut)}
    (hnodup : (outputs.map Prod.fst).Nodup) (hvalues : ∀ entry ∈ outputs, 0 ≤ entry.2.value) :
    ∀ {coins : CoinsMap}, coins.Finite → (∀ entry ∈ outputs, coins entry.1 = none) →
      (coins.add_all height is_coinbase outputs).total ≤
        coins.total + (outputs.map fun entry => entry.2.value).sum := by
  induction outputs with
  | nil =>
    intro coins _ _
    simp [CoinsMap.add_all]
  | cons entry rest ih =>
    obtain ⟨outpoint, output⟩ := entry
    intro coins hfinite hfree
    rw [List.map_cons, List.nodup_cons] at hnodup
    have hvalue : 0 ≤ output.value := hvalues (outpoint, output) (by simp)
    have hrest_values : ∀ entry ∈ rest, 0 ≤ entry.2.value :=
      fun entry hmem => hvalues entry (List.mem_cons_of_mem _ hmem)
    have hrest_free : ∀ entry ∈ rest, coins entry.1 = none :=
      fun entry hmem => hfree entry (List.mem_cons_of_mem _ hmem)
    rw [CoinsMap.add_all, List.map_cons, List.sum_cons]
    split
    · have := ih hnodup.2 hrest_values hfinite hrest_free
      linarith
    · have hupdated : ∀ entry ∈ rest,
          Function.update coins outpoint (some ⟨output, height, is_coinbase⟩) entry.1 = none := by
        intro entry hmem
        rw [Function.update_of_ne fun heq => hnodup.1 (List.mem_map.mpr ⟨entry, hmem, heq⟩)]
        exact hrest_free entry hmem
      have hbound := ih hnodup.2 hrest_values (hfinite.update outpoint _) hupdated
      rw [hfinite.total_update, hfree (outpoint, output) (by simp)] at hbound
      simp only [value_of] at hbound
      linarith

def CoinsViewCache.known (self : CoinsViewCache) : List OutPoint :=
  (self.cache.keys ++ self.base.coins.keys).dedup

theorem CoinsViewCache.mem_known {self : CoinsViewCache} {outpoint : OutPoint}
    (hvisible : self.visible outpoint ≠ none) : outpoint ∈ self.known := by
  unfold CoinsViewCache.known
  rw [List.mem_dedup, List.mem_append]
  by_contra hnot
  rw [not_or] at hnot
  have hcache : self.cache.lookup outpoint = none := AList.lookup_eq_none.mpr fun h => hnot.1 (AList.mem_keys.mp h)
  have hbase : self.base.coins.lookup outpoint = none :=
    AList.lookup_eq_none.mpr fun h => hnot.2 (AList.mem_keys.mp h)
  rw [CoinsViewCache.visible_of_not_cached hcache, CoinsViewDB.get_coin, hbase] at hvisible
  exact hvisible rfl

theorem CoinsViewCache.visible_finite (self : CoinsViewCache) : self.visible.Finite :=
  self.known.finite_toSet.subset fun _ hvisible => CoinsViewCache.mem_known hvisible

theorem CoinsViewCache.visible_total (self : CoinsViewCache) :
    self.visible.total = (self.known.map fun outpoint => value_of (self.visible outpoint)).sum := by
  have hsupport : (Function.support fun outpoint => value_of (self.visible outpoint)) ⊆ self.known.toFinset := by
    intro outpoint hvalue
    rw [List.coe_toFinset]
    exact CoinsViewCache.mem_known fun hnone => hvalue (congrArg value_of hnone)
  have hnodup : self.known.Nodup := List.nodup_dedup _
  unfold CoinsMap.total
  rw [finsum_eq_sum_of_support_subset _ hsupport, List.sum_toFinset _ hnodup]

end qubitcoin.coins
