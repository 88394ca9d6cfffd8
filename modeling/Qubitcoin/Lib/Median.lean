import Mathlib.Data.List.Sort
import Mathlib.Order.Lattice
import Mathlib.Algebra.Order.BigOperators.Group.List
import Mathlib.Data.List.Perm.Subperm
import Mathlib.Tactic

/-! Ranks in a list: the entry at a position of the sorted list, compared with a
    bound by counting the entries below that bound. -/

namespace rank

variable {α : Type} [LinearOrder α]

/-- The entry at a position of the sorted list. -/
def nth (l : List α) (k : Nat) (default : α) : α := l.mergeSort.getD k default

theorem nth_eq_getElem {l : List α} {k : Nat} (hk : k < l.mergeSort.length) (default : α) :
    nth l k default = l.mergeSort[k] := by
  rw [nth, List.getD_eq_getElem?_getD, List.getElem?_eq_getElem hk, Option.getD_some]

/-- No more entries than the position lie below the entry there. -/
theorem countP_lt_nth {l : List α} {k : Nat} (hk : k < l.length) (default : α) :
    l.countP (fun a => decide (a < nth l k default)) ≤ k := by
  have hlength : k < l.mergeSort.length := by simpa using hk
  have hnth := nth_eq_getElem hlength default
  have hsplit := List.take_append_drop k l.mergeSort
  have hdrop : (l.mergeSort.drop k).countP (fun a => decide (a < nth l k default)) = 0 := by
    rw [List.countP_eq_zero]
    intro a ha
    obtain ⟨i, hi, rfl⟩ := List.mem_iff_getElem.mp ha
    rw [List.getElem_drop, hnth, decide_eq_true_eq, not_lt]
    exact l.sortedLE_mergeSort.getElem_le_getElem_of_le (Nat.le_add_right k i)
  have htake := List.countP_le_length (l := l.mergeSort.take k) (p := fun a => decide (a < nth l k default))
  rw [← (List.mergeSort_perm l _).countP_eq, ← hsplit, List.countP_append, hdrop]
  rw [List.length_take] at htake
  omega

/-- A bound that few entries lie below does not exceed the entry at the position. -/
theorem le_nth_of_countP {l : List α} {k : Nat} {bound : α} (hk : k < l.length)
    (hcount : l.countP (fun a => decide (a < bound)) ≤ k) (default : α) : bound ≤ nth l k default := by
  have hlength : k < l.mergeSort.length := by simpa using hk
  have hnth := nth_eq_getElem hlength default
  by_contra hlow
  rw [not_le, hnth] at hlow
  have hall : ∀ a ∈ l.mergeSort.take (k + 1), decide (a < bound) = true := by
    intro a ha
    obtain ⟨i, hi, rfl⟩ := List.mem_iff_getElem.mp ha
    rw [List.length_take] at hi
    rw [List.getElem_take, decide_eq_true_eq]
    exact lt_of_le_of_lt (l.sortedLE_mergeSort.getElem_le_getElem_of_le (by omega)) hlow
  have htake := List.countP_eq_length.mpr hall
  have hsub := (List.take_sublist (k + 1) l.mergeSort).countP_le (p := fun a => decide (a < bound))
  rw [htake, List.length_take, (List.mergeSort_perm l _).countP_eq] at hsub
  omega

theorem le_nth_iff {l : List α} {k : Nat} {bound : α} (hk : k < l.length) (default : α) :
    bound ≤ nth l k default ↔ l.countP (fun a => decide (a < bound)) ≤ k := by
  constructor
  · intro hle
    refine (List.countP_mono_left fun a _ hlt => ?_).trans (countP_lt_nth hk default)
    exact decide_eq_true ((of_decide_eq_true hlt).trans_le hle)
  · exact fun hcount => le_nth_of_countP hk hcount default

/-- An entry above the median that is put in front, perhaps in the place of
    entries at the end, does not lower the median. -/
theorem median_le_cons {l rest : List α} {a default : α} (hsub : rest.Sublist l) (hne : l ≠ [])
    (hlength : l.length ≤ rest.length + 1) (habove : nth l (l.length / 2) default < a) :
    nth l (l.length / 2) default ≤ nth (a :: rest) ((a :: rest).length / 2) default := by
  have hpos := List.length_pos_iff.mpr hne
  apply le_nth_of_countP
  · rw [List.length_cons]
    omega
  · have hcount := countP_lt_nth (l := l) (k := l.length / 2) (by omega) default
    have hle := hsub.countP_le (p := fun b => decide (b < nth l (l.length / 2) default))
    rw [List.countP_cons_of_neg (by simpa using habove.le), List.length_cons]
    omega

end rank

/-! The largest elements of a list have the largest sum among all selections of their number. -/

namespace greedy

variable {V : Type} [AddCommMonoid V] [LinearOrder V] [IsOrderedAddMonoid V] {l s : List V}

theorem sum_le_sum_take_of_sublist (hsorted : l.Pairwise (· ≥ ·)) (hsub : s.Sublist l) :
    s.sum ≤ (l.take s.length).sum := by
  induction l generalizing s with
  | nil =>
    rw [List.sublist_nil.mp hsub]
    exact le_refl _
  | cons a l ih =>
    obtain ⟨hlargest, hrest⟩ := List.pairwise_cons.mp hsorted
    cases s with
    | nil => exact le_refl _
    | cons b s =>
      have hle : b ≤ a := by
        rcases List.mem_cons.mp (hsub.subset List.mem_cons_self) with rfl | hmem
        · exact le_refl _
        · exact hlargest b hmem
      rw [List.length_cons, List.take_succ_cons, List.sum_cons, List.sum_cons]
      exact add_le_add hle (ih hrest hsub.tail)

/-- No selection of as many elements is worth more than the front of a descending list. -/
theorem sum_map_le_sum_map_take {A : Type} {l s : List A} {value : A → V}
    (hsorted : l.Pairwise fun a b => value a ≥ value b) (hsub : s.Subperm l) :
    (s.map value).sum ≤ ((l.take s.length).map value).sum := by
  obtain ⟨ordered, hperm, hordered⟩ := hsub
  have hle := sum_le_sum_take_of_sublist (List.pairwise_map.mpr hsorted) (hordered.map value)
  rw [List.length_map, ← List.map_take, hperm.length_eq, (hperm.map value).sum_eq] at hle
  exact hle

end greedy
