import Mathlib.Algebra.BigOperators.Group.Finset.Basic
import Mathlib.Logic.Relation

/-! The weight of the nodes of a finite graph that have a property: all those above a
    node, or all those below it. -/

namespace weight

open Relation

variable {K M : Type} [AddCommMonoid M]

open scoped Classical in
/-- The nodes with a property. -/
noncomputable def chosen (keys : Finset K) (P : K → Prop) : Finset K := keys.filter P

/-- The total weight of the nodes with a property. -/
noncomputable def total (keys : Finset K) (w : K → M) (P : K → Prop) : M := ∑ a ∈ chosen keys P, w a

theorem mem_chosen {keys : Finset K} {P : K → Prop} {a : K} : a ∈ chosen keys P ↔ a ∈ keys ∧ P a := by
  classical
  exact Finset.mem_filter

variable {keys : Finset K} {w : K → M} {P Q : K → Prop}

theorem total_congr {w' : K → M} (hP : ∀ a ∈ keys, P a ↔ Q a) (hw : ∀ a ∈ keys, P a → w a = w' a) :
    total keys w P = total keys w' Q := by
  have hchosen : chosen keys P = chosen keys Q := by
    ext a
    rw [mem_chosen, mem_chosen]
    exact and_congr_right (hP a)
  unfold total
  rw [← hchosen]
  exact Finset.sum_congr rfl fun a ha => hw a (mem_chosen.mp ha).1 (mem_chosen.mp ha).2

theorem total_false (hP : ∀ a ∈ keys, ¬ P a) : total keys w P = 0 :=
  Finset.sum_eq_zero fun a ha => absurd (mem_chosen.mp ha).2 (hP a (mem_chosen.mp ha).1)

/-- A node more. -/
theorem total_insert_pos [DecidableEq K] {k : K} (hnew : k ∉ keys) (hk : P k) :
    total (insert k keys) w P = w k + total keys w P := by
  have hchosen : chosen (insert k keys) P = insert k (chosen keys P) := by
    ext a
    rw [mem_chosen, Finset.mem_insert, Finset.mem_insert, mem_chosen]
    constructor
    · exact fun ⟨hmem, hP⟩ => hmem.imp_right fun hmem => ⟨hmem, hP⟩
    · rintro (rfl | ⟨hmem, hP⟩)
      · exact ⟨.inl rfl, hk⟩
      · exact ⟨.inr hmem, hP⟩
  unfold total
  rw [hchosen, Finset.sum_insert]
  exact fun hmem => hnew (mem_chosen.mp hmem).1

theorem total_insert_neg [DecidableEq K] {k : K} (hk : ¬ P k) : total (insert k keys) w P = total keys w P := by
  have hchosen : chosen (insert k keys) P = chosen keys P := by
    ext a
    rw [mem_chosen, Finset.mem_insert, mem_chosen]
    constructor
    · rintro ⟨rfl | hmem, hP⟩
      · exact absurd hP hk
      · exact ⟨hmem, hP⟩
    · exact fun ⟨hmem, hP⟩ => ⟨.inr hmem, hP⟩
  unfold total
  rw [hchosen]

/-- All but one of the nodes with a property. -/
theorem add_total_ne [DecidableEq K] {k : K} (hmem : k ∈ keys) (hk : P k) :
    w k + total keys w (fun a => a ≠ k ∧ P a) = total keys w P := by
  have hchosen : chosen keys (fun a => a ≠ k ∧ P a) = (chosen keys P).erase k := by
    ext a
    rw [mem_chosen, Finset.mem_erase, mem_chosen]
    exact and_left_comm
  unfold total
  rw [hchosen]
  exact Finset.add_sum_erase _ _ (mem_chosen.mpr ⟨hmem, hk⟩)

/-- The nodes with a property among those with another. -/
theorem total_filter [DecidablePred Q] : total (keys.filter Q) w P = total keys w (fun a => Q a ∧ P a) := by
  have hchosen : chosen (keys.filter Q) P = chosen keys (fun a => Q a ∧ P a) := by
    ext a
    rw [mem_chosen, mem_chosen, Finset.mem_filter, and_assoc]
  unfold total
  rw [hchosen]

/-- The nodes of either of two properties that exclude each other. -/
theorem total_or {R : K → Prop} (hR : ∀ a ∈ keys, R a ↔ P a ∨ Q a) (hdisjoint : ∀ a ∈ keys, P a → ¬ Q a) :
    total keys w R = total keys w P + total keys w Q := by
  classical
  have hchosen : chosen keys R = chosen keys P ∪ chosen keys Q := by
    ext a
    rw [Finset.mem_union, mem_chosen, mem_chosen, mem_chosen, ← and_or_left]
    exact and_congr_right (hR a)
  unfold total
  rw [hchosen]
  apply Finset.sum_union
  rw [Finset.disjoint_left]
  intro a hP hQ
  exact hdisjoint a (mem_chosen.mp hP).1 (mem_chosen.mp hP).2 (mem_chosen.mp hQ).2

/-- The nodes that have a property for one of several indices, no two of which share a
    node. -/
theorem total_exists {I : Type} (R : I → K → Prop) {indices : List I}
    (hdisjoint : indices.Pairwise fun i j => ∀ a ∈ keys, R i a → ¬ R j a) :
    total keys w (fun a => ∃ i ∈ indices, R i a) = (indices.map fun i => total keys w (R i)).sum := by
  induction indices with
  | nil => exact total_false fun a _ ⟨i, hi, _⟩ => by cases hi
  | cons i rest ih =>
    obtain ⟨hfirst, hrest⟩ := List.pairwise_cons.mp hdisjoint
    rw [List.map_cons, List.sum_cons, ← ih hrest]
    apply total_or
    · intro a _
      constructor
      · rintro ⟨j, hj, hR⟩
        obtain rfl | hj := List.mem_cons.mp hj
        · exact .inl hR
        · exact .inr ⟨j, hj, hR⟩
      · rintro (hR | ⟨j, hj, hR⟩)
        · exact ⟨i, List.mem_cons_self, hR⟩
        · exact ⟨j, List.mem_cons_of_mem i hj, hR⟩
    · rintro a ha hR ⟨j, hj, hother⟩
      exact hfirst j hj a ha hR hother

/-- What holds of each weight and of sums holds of the total. -/
theorem total_induction {p : M → Prop} (hzero : p 0) (hadd : ∀ a b, p a → p b → p (a + b)) (hw : ∀ a ∈ keys, p (w a)) :
    p (total keys w P) :=
  Finset.sum_induction _ p hadd hzero fun a ha => hw a (mem_chosen.mp ha).1

end weight
