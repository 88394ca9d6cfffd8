import Qubitcoin.Coins.Flush
import Qubitcoin.Lib.Trace

/-! The coins cache against a plain outpoint-to-coin map. -/

open qubitcoin primitives transaction

namespace qubitcoin.coins

/-- A call on a coins cache. -/
inductive Op where
  | fetch_coin (outpoint : OutPoint)
  | prefetch_coins (outpoints : List OutPoint)
  | add_coin (outpoint : OutPoint) (coin : Coin) (possible_overwrite : Bool)
  | spend_coin (outpoint : OutPoint)
  | uncache (outpoint : OutPoint)
  | flush_to (written : Bool)

/-- What a caller observes of a call: the coin that is returned, or nothing.
    After a flush that succeeded, what the base then holds is observed too. -/
inductive Obs where
  | done
  | coin (result : Option Coin)
  | flushed (base : CoinsMap)
  | flush_failed

/-- One call on the cache. An `add_coin` that panics is no step, and a flush may
    iterate the cache in any order. -/
inductive CoinsViewCache.Step : CoinsViewCache → Op × Obs → CoinsViewCache → Prop where
  | fetch_coin (view : CoinsViewCache) (outpoint : OutPoint) :
      Step view (.fetch_coin outpoint, .coin (view.fetch_coin outpoint).1) (view.fetch_coin outpoint).2
  | prefetch_coins (view : CoinsViewCache) (outpoints : List OutPoint) :
      Step view (.prefetch_coins outpoints, .done) (view.prefetch_coins outpoints)
  | add_coin {view after : CoinsViewCache} {outpoint : OutPoint} {coin : Coin} {possible_overwrite : Bool}
      (hadd : view.add_coin outpoint coin possible_overwrite = .ok after) :
      Step view (.add_coin outpoint coin possible_overwrite, .done) after
  | spend_coin (view : CoinsViewCache) (outpoint : OutPoint) :
      Step view (.spend_coin outpoint, .coin (view.spend_coin outpoint).1) (view.spend_coin outpoint).2
  | uncache (view : CoinsViewCache) (outpoint : OutPoint) :
      Step view (.uncache outpoint, .done) (view.uncache outpoint)
  | flush_to {view : CoinsViewCache} {order : List (Σ _ : OutPoint, CoinsCacheEntry)}
      (horder : order.Perm view.cache.entries) :
      Step view (.flush_to true, .flushed (view.flush_to order true).2.base.get_coin) (view.flush_to order true).2
  | flush_refused {view : CoinsViewCache} (order : List (Σ _ : OutPoint, CoinsCacheEntry)) :
      Step view (.flush_to false, .flush_failed) (view.flush_to order false).2

/-- The same calls on a plain map, which is its own base. -/
def CoinsMap.run (coins : CoinsMap) : Op → Obs × CoinsMap
  | .fetch_coin outpoint => (.coin (coins outpoint), coins)
  | .prefetch_coins _ => (.done, coins)
  | .add_coin outpoint coin _ =>
    (.done, if coin.tx_out.script_pubkey.is_unspendable then coins
      else Function.update coins outpoint (some coin))
  | .spend_coin outpoint => (.coin (coins outpoint), Function.update coins outpoint none)
  | .uncache _ => (.done, coins)
  | .flush_to true => (.flushed coins, coins)
  | .flush_to false => (.flush_failed, coins)

/-- One call on the plain map. -/
def CoinsMap.Step (coins : CoinsMap) (event : Op × Obs) (after : CoinsMap) : Prop :=
  coins.run event.1 = (event.2, after)

/-- An addition of a spendable coin has the outpoint cached already, or the base
    shows no coin there. -/
def Op.SeesParent (view : CoinsViewCache) : Op → Prop
  | .add_coin outpoint coin _ => coin.tx_out.script_pubkey.is_unspendable = false → view.SeesParent outpoint
  | _ => True

/-- A call whose additions are not made past a coin of the base. -/
def CoinsViewCache.GuardedStep (view : CoinsViewCache) (event : Op × Obs) (after : CoinsViewCache) : Prop :=
  event.1.SeesParent view ∧ view.Step event after

theorem CoinsViewCache.Coherent.uncache {self : CoinsViewCache} (hcoherent : self.Coherent)
    (outpoint : OutPoint) :
    (self.uncache outpoint).visible = self.visible ∧ (self.uncache outpoint).Coherent := by
  unfold CoinsViewCache.uncache
  split
  · next entry hcache =>
    split
    · exact ⟨rfl, hcoherent⟩
    · next hdirty =>
      have hbase := hcoherent.clean hcache (by simpa using hdirty)
      refine ⟨?_, ⟨?_, ?_⟩⟩
      · funext query
        rw [CoinsViewCache.visible_eq, CoinsViewCache.visible_eq]
        by_cases h : query = outpoint
        · subst h
          simp [hcache, hbase, CoinsCacheEntry.shown, CoinsViewDB.not_spent_of_get_coin hbase]
        · simp [h]
      · intro query other hlookup hfresh
        rw [lookup_erase_eq] at hlookup
        split at hlookup
        · cases hlookup
        · exact hcoherent.fresh hlookup hfresh
      · intro query other hlookup hclean
        rw [lookup_erase_eq] at hlookup
        split at hlookup
        · cases hlookup
        · exact hcoherent.clean hlookup hclean
  · exact ⟨rfl, hcoherent⟩

theorem CoinsViewCache.Coherent.step {self after : CoinsViewCache} {event : Op × Obs}
    (hcoherent : self.Coherent) (hstep : self.GuardedStep event after) :
    CoinsMap.Step self.visible event after.visible ∧ after.Coherent := by
  obtain ⟨hguard, hstep⟩ := hstep
  unfold CoinsMap.Step
  cases hstep with
  | fetch_coin outpoint =>
    have hreads := self.fetch_coin_reads outpoint
    rw [hreads.visible]
    exact ⟨rfl, hreads.coherent hcoherent⟩
  | prefetch_coins outpoints =>
    have hreads := self.prefetch_coins_reads outpoints
    rw [hreads.visible]
    exact ⟨rfl, hreads.coherent hcoherent⟩
  | add_coin hadd =>
    rw [(CoinsViewCache.add_coin_visible hadd).1]
    exact ⟨rfl, hcoherent.add_coin hadd hguard⟩
  | spend_coin outpoint =>
    obtain ⟨hvisible, hafter⟩ := hcoherent.spend_coin outpoint
    rw [hvisible, self.spend_coin_result outpoint]
    exact ⟨rfl, hafter⟩
  | uncache outpoint =>
    obtain ⟨hvisible, hafter⟩ := hcoherent.uncache outpoint
    rw [hvisible]
    exact ⟨rfl, hafter⟩
  | flush_to horder =>
    obtain ⟨hvisible, hbase, hafter⟩ := hcoherent.flush_to horder
    rw [hvisible, hbase]
    exact ⟨rfl, hafter⟩
  | flush_refused order => exact ⟨rfl, hcoherent⟩

/-- A run of the cache whose additions are not made past a coin of the base is,
    event for event, a run of a plain map that starts as the base. -/
theorem CoinsViewCache.refines_coins_map {base : CoinsViewDB} {events : List (Op × Obs)}
    {view : CoinsViewCache}
    (hrun : transition.Trace CoinsViewCache.GuardedStep (CoinsViewCache.new base) events view) :
    transition.Trace CoinsMap.Step base.get_coin events view.visible := by
  obtain ⟨coins, htrace, hvisible, _⟩ := hrun.simulate
    (fun view coins => view.visible = coins ∧ view.Coherent)
    (fun {_ _ _ _} hrel hstep => by
      obtain ⟨rfl, hcoherent⟩ := hrel
      exact ⟨_, (hcoherent.step hstep).1, rfl, (hcoherent.step hstep).2⟩)
    ⟨CoinsViewCache.new_visible base, CoinsViewCache.new_coherent base⟩
  rw [hvisible]
  exact htrace

/-- A database with one coin, the coin, and another one to put in its place. -/
def overwritten : OutPoint := ⟨0, 0⟩
def stored_coin : Coin := ⟨⟨50, ⟨[0x51]⟩⟩, 1, true⟩
def added_coin : Coin := ⟨⟨25, ⟨[0x51]⟩⟩, 2, true⟩
def stored_base : CoinsViewDB := ⟨AList.singleton overwritten stored_coin, 0⟩

/-- Fetched first, the stored coin is overwritten, spent, gone, and gone from the
    base after a flush. -/
theorem refines_coins_map_overwrite : ∃ view : CoinsViewCache,
    transition.Trace CoinsMap.Step stored_base.get_coin
      [(.fetch_coin overwritten, .coin (some stored_coin)),
       (.add_coin overwritten added_coin true, .done),
       (.spend_coin overwritten, .coin (some added_coin)),
       (.fetch_coin overwritten, .coin none),
       (.flush_to true, .flushed fun _ => none)] view.visible := by
  let spent : CoinsViewCache := ⟨stored_base, AList.singleton overwritten ⟨.empty, .DIRTY⟩, 0, 0⟩
  let order : List (Σ _ : OutPoint, CoinsCacheEntry) := [⟨overwritten, .empty, .DIRTY⟩]
  have hflush : spent.Step (.flush_to true, .flushed fun _ => none) (spent.flush_to order true).2 :=
    @CoinsViewCache.Step.flush_to spent order (List.Perm.refl order)
  exact ⟨_, CoinsViewCache.refines_coins_map (.cons ⟨trivial, .fetch_coin _ _⟩
    (.cons ⟨fun _ hcache => absurd hcache (by decide), .add_coin rfl⟩ (.cons ⟨trivial, .spend_coin _ _⟩
      (.cons ⟨trivial, .fetch_coin _ _⟩ (.cons ⟨trivial, hflush⟩ (.nil _))))))⟩

/-- An addition past the stored coin is marked `FRESH`: once it is spent, the
    stored coin shows again, which no plain map does. -/
theorem refines_coins_map_fails : ¬ ∀ (base : CoinsViewDB) (events : List (Op × Obs)) (view : CoinsViewCache),
    transition.Trace CoinsViewCache.Step (CoinsViewCache.new base) events view →
    transition.Trace CoinsMap.Step base.get_coin events view.visible := by
  intro hall
  have hrun : transition.Trace CoinsViewCache.Step (CoinsViewCache.new stored_base)
      [(.add_coin overwritten added_coin true, .done),
       (.spend_coin overwritten, .coin (some added_coin)),
       (.fetch_coin overwritten, .coin (some stored_coin))] _ :=
    .cons (.add_coin (by rfl)) (.cons (.spend_coin _ _) (.cons (.fetch_coin _ _) (.nil _)))
  cases hall _ _ _ hrun with
  | cons hadd hrest =>
    cases hrest with
    | cons hspend hrest =>
      cases hrest with
      | cons hfetch _ =>
        cases hadd
        cases hspend
        cases hfetch

end qubitcoin.coins
