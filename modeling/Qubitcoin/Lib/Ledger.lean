import Mathlib.Data.List.Induction
import Mathlib.Data.Set.Basic
import Qubitcoin.Lib.Trace

/-! Sets that are kept by steps. A step first removes keys and then adds keys, without a look
    at the steps before it. -/

namespace ledger

variable {S K : Type} (adds removes : S → K → Prop)

/-- A key is added by a step and not removed after it. -/
def Live (steps : List S) (key : K) : Prop :=
  ∃ before step after, steps = before ++ step :: after ∧ adds step key ∧ ∀ later ∈ after, ¬ removes later key

/-- A key is added and never removed, in whatever order. -/
def Settled (steps : List S) (key : K) : Prop :=
  (∃ step ∈ steps, adds step key) ∧ ∀ step ∈ steps, ¬ removes step key

/-- A step that adds a key which some step removes comes before a step that removes it. -/
def Ordered (steps : List S) : Prop :=
  ∀ before step after, steps = before ++ step :: after → ∀ key, adds step key →
    (∃ other ∈ steps, removes other key) → ∃ later ∈ after, removes later key

variable {adds removes}

theorem live_concat {steps : List S} {step : S} {key : K} :
    Live adds removes (steps ++ [step]) key ↔ adds step key ∨ Live adds removes steps key ∧ ¬ removes step key := by
  constructor
  · rintro ⟨before, first, after, hsteps, hadds, hlater⟩
    rcases List.eq_nil_or_concat after with rfl | ⟨rest, last, rfl⟩
    · obtain ⟨rfl, hsame⟩ := List.append_inj' hsteps rfl
      obtain ⟨rfl, -⟩ := List.cons.inj hsame
      exact .inl hadds
    · rw [List.concat_eq_append] at hsteps hlater
      rw [← List.cons_append, ← List.append_assoc] at hsteps
      obtain ⟨rfl, hsame⟩ := List.append_inj' hsteps rfl
      obtain ⟨rfl, -⟩ := List.cons.inj hsame
      refine .inr ⟨⟨before, first, rest, rfl, hadds, fun later hmem => ?_⟩, ?_⟩
      · exact hlater later (List.mem_append_left _ hmem)
      · exact hlater step (List.mem_append_right _ List.mem_cons_self)
  · rintro (hadds | ⟨⟨before, first, after, rfl, hadds, hlater⟩, hkept⟩)
    · exact ⟨steps, step, [], rfl, hadds, nofun⟩
    · refine ⟨before, first, after ++ [step], by rw [List.append_assoc]; rfl, hadds, fun later hmem => ?_⟩
      rcases List.mem_append.mp hmem with hold | hnew
      · exact hlater later hold
      · rw [List.mem_singleton.mp hnew]
        exact hkept

theorem Settled.live {steps : List S} {key : K} (hsettled : Settled adds removes steps key) :
    Live adds removes steps key := by
  obtain ⟨⟨step, hmem, hadds⟩, hkept⟩ := hsettled
  obtain ⟨before, after, rfl⟩ := List.append_of_mem hmem
  exact ⟨before, step, after, rfl, hadds, fun later hlater =>
    hkept later (List.mem_append_right _ (List.mem_cons_of_mem _ hlater))⟩

/-- The order does not matter exactly when every removal is repeated after its addition. -/
theorem live_iff_settled {steps : List S} :
    (∀ key, Live adds removes steps key ↔ Settled adds removes steps key) ↔ Ordered adds removes steps := by
  constructor
  · rintro hsame before step after rfl key hadds ⟨other, hother, hremoves⟩
    by_contra hnone
    have hlive : Live adds removes (before ++ step :: after) key :=
      ⟨before, step, after, rfl, hadds, fun later hmem hlater => hnone ⟨later, hmem, hlater⟩⟩
    exact ((hsame key).mp hlive).2 other hother hremoves
  · intro hordered key
    refine ⟨?_, Settled.live⟩
    rintro ⟨before, step, after, rfl, hadds, hlater⟩
    refine ⟨⟨step, List.mem_append_right _ List.mem_cons_self, hadds⟩, fun other hother hremoves => ?_⟩
    obtain ⟨later, hmem, hgone⟩ := hordered before step after rfl key hadds ⟨other, hother, hremoves⟩
    exact hlater later hmem hgone

/-- What is settled depends on the set of the steps alone. -/
theorem settled_congr {steps others : List S} (hsame : ∀ step, step ∈ steps ↔ step ∈ others) (key : K) :
    Settled adds removes steps key ↔ Settled adds removes others key := by
  unfold Settled
  simp only [hsame]

end ledger

/-! Undoing changes of a map from a state in which they may not have been made. -/

namespace rewind

variable {K V : Type}

/-- The touched keys hold again what they held before, and the other keys hold what
    they hold now. -/
structure Rewinds (touched : Set K) (before current after : K → V) : Prop where
  restored : ∀ key ∈ touched, after key = before key
  kept : ∀ key, key ∉ touched → after key = current key

namespace Rewinds

variable {touched earlier later : Set K} {before first second current mid after : K → V}

theorem empty (before current : K → V) : Rewinds ∅ before current current :=
  ⟨fun _ hmem => absurd hmem (Set.notMem_empty _), fun _ _ => rfl⟩

/-- Undoing a change and then the one before it, which led from `first` to `second`. -/
theorem trans (hlater : Rewinds later second current mid) (hearlier : Rewinds earlier first mid after)
    (hsecond : ∀ key, key ∉ earlier → second key = first key) :
    Rewinds (earlier ∪ later) first current after where
  restored := by
    intro key hmem
    by_cases hkey : key ∈ earlier
    · exact hearlier.restored key hkey
    · calc after key
          = mid key := hearlier.kept key hkey
        _ = second key := hlater.restored key (hmem.resolve_left hkey)
        _ = first key := hsecond key hkey
  kept := by
    intro key hmem
    rw [Set.mem_union, not_or] at hmem
    exact (hearlier.kept key hmem.1).trans (hlater.kept key hmem.2)

theorem congr (hrewinds : Rewinds earlier before current after) (hkeys : ∀ key, key ∈ later ↔ key ∈ earlier) :
    Rewinds later before current after :=
  Set.ext hkeys ▸ hrewinds

/-- Nothing is left of the changes when the state differed on touched keys only. -/
theorem eq_before (hrewinds : Rewinds touched before current after)
    (hcurrent : ∀ key, key ∉ touched → current key = before key) : after = before := by
  funext key
  by_cases hkey : key ∈ touched
  · exact hrewinds.restored key hkey
  · exact (hrewinds.kept key hkey).trans (hcurrent key hkey)

end Rewinds

end rewind

/-! Steps that use up keys which are held and make keys which are not. -/

namespace tally

open transition

variable {S E K : Type} [DecidableEq K] (held : S → K → Nat) (consumes produces : E → List K)

/-- What is left and what is used up is what was there and what is made, key by key. -/
def Balanced (before : S) (events : List E) (after : S) : Prop :=
  ∀ key, held after key + (events.flatMap consumes).count key = held before key + (events.flatMap produces).count key

variable {held consumes produces}

theorem Balanced.append {first second third : S} {events others : List E}
    (hleft : Balanced held consumes produces first events second)
    (hright : Balanced held consumes produces second others third) :
    Balanced held consumes produces first (events ++ others) third := by
  intro key
  have hfirst := hleft key
  have hsecond := hright key
  rw [List.flatMap_append, List.flatMap_append, List.count_append, List.count_append]
  omega

/-- Balanced steps make a balanced run. -/
theorem Balanced.of_trace {step : S → E → S → Prop}
    (hstep : ∀ {before event after}, step before event after → Balanced held consumes produces before [event] after)
    {before after : S} {events : List E} (hrun : Trace step before events after) :
    Balanced held consumes produces before events after := by
  induction hrun with
  | nil => exact fun _ => rfl
  | cons head _ ih => exact (hstep head).append ih

end tally
