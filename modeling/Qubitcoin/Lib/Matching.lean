import Mathlib.Data.List.NodupEquivFin
import Mathlib.Data.List.Forall2

/-! Matchings of one list into another that keep the order, and the scan that finds one
    whenever there is one. -/

namespace matching

variable {S K : Type}

/-- A strictly increasing map of positions, with related entries at both ends. -/
def Ordered (R : S → K → Prop) (sigs : List S) (keys : List K) : Prop :=
  ∃ position : Fin sigs.length → Fin keys.length, StrictMono position ∧
    ∀ i, R (sigs.get i) (keys.get (position i))

/-- The positions of a matching spell out a sublist of related entries. -/
theorem ordered_iff_sublistForall₂ {R : S → K → Prop} {sigs : List S} {keys : List K} :
    Ordered R sigs keys ↔ List.SublistForall₂ R sigs keys := by
  rw [List.sublistForall₂_iff]
  constructor
  · rintro ⟨position, hmono, hrel⟩
    have hlength : (List.ofFn fun i => keys.get (position i)).length = sigs.length := List.length_ofFn
    refine ⟨List.ofFn fun i => keys.get (position i), ?_, ?_⟩
    · refine List.forall₂_iff_get.mpr ⟨hlength.symm, fun i hsigs hfound => ?_⟩
      rw [List.get_ofFn]
      exact hrel ⟨i, hsigs⟩
    · refine List.sublist_iff_exists_fin_orderEmbedding_get_eq.mpr
        ⟨OrderEmbedding.ofStrictMono (fun i => position (Fin.cast hlength i)) fun i j hlt => hmono hlt, fun i => ?_⟩
      rw [List.get_ofFn]
      rfl
  · rintro ⟨found, hrel, hsub⟩
    obtain ⟨hlength, hget⟩ := List.forall₂_iff_get.mp hrel
    obtain ⟨position, hposition⟩ := List.sublist_iff_exists_fin_orderEmbedding_get_eq.mp hsub
    refine ⟨fun i => position (Fin.cast hlength i), fun i j hlt => position.strictMono hlt, fun i => ?_⟩
    rw [← hposition]
    exact hget i.val i.isLt (hlength ▸ i.isLt)

/-- Give each entry the first of the remaining ones that it may have. -/
def scan (ok : S → K → Bool) : List S → List K → Bool
  | [], _ => true
  | _ :: _, [] => false
  | sig :: sigs, key :: keys => if ok sig key then scan ok sigs keys else scan ok (sig :: sigs) keys

/-- The first entry may be left out of a matching. -/
theorem sublistForall₂_tail {R : S → K → Prop} {sig : S} {sigs : List S} {keys : List K}
    (h : List.SublistForall₂ R (sig :: sigs) keys) : List.SublistForall₂ R sigs keys := by
  induction keys with
  | nil => cases h
  | cons key keys ih =>
    cases h with
    | cons _ hrest => exact .cons_right hrest
    | cons_right hrest => exact .cons_right (ih hrest)

/-- Taking the first fit loses no matching: where a later one would do, the first
    does as well. -/
theorem scan_iff_sublistForall₂ (ok : S → K → Bool) {keys : List K} :
    ∀ {sigs : List S}, scan ok sigs keys = true ↔ List.SublistForall₂ (fun sig key => ok sig key = true) sigs keys := by
  induction keys with
  | nil =>
    intro sigs
    cases sigs with
    | nil => exact ⟨fun _ => .nil, fun _ => rfl⟩
    | cons sig sigs => exact ⟨nofun, nofun⟩
  | cons key keys ih =>
    intro sigs
    cases sigs with
    | nil => exact ⟨fun _ => .nil, fun _ => rfl⟩
    | cons sig sigs =>
      rw [scan]
      split
      · next hok =>
        rw [ih]
        constructor
        · exact .cons hok
        · intro h
          cases h with
          | cons _ hrest => exact hrest
          | cons_right hrest => exact sublistForall₂_tail hrest
      · next hbad =>
        rw [ih]
        constructor
        · exact .cons_right
        · intro h
          cases h with
          | cons hok _ => exact absurd hok hbad
          | cons_right hrest => exact hrest

theorem scan_iff (ok : S → K → Bool) {sigs : List S} {keys : List K} :
    scan ok sigs keys = true ↔ Ordered (fun sig key => ok sig key = true) sigs keys := by
  rw [ordered_iff_sublistForall₂, scan_iff_sublistForall₂]

end matching
