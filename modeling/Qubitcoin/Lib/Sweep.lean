import Mathlib.Data.List.Perm.Basic
import Mathlib.Logic.Relation
import Mathlib.Order.WellFounded
import Mathlib.Tactic

/-! Ordering items by repeated passes: an item is placed once it is ready for what was placed
    before. -/

namespace sweep

variable {T : Type} (ready : List T → T → Bool)

/-- One pass: place the items that are ready, and keep the others for the next pass. -/
def pass : List T → (placed kept : List T) → List T × List T
  | [], placed, kept => (placed, kept)
  | item :: items, placed, kept =>
    if ready placed item then pass items (placed ++ [item]) kept else pass items placed (kept ++ [item])

/-- The order that the passes come to, and the items that a pass without progress has left. -/
structure Sweep (T : Type) where
  placed : List T
  stuck : List T

/-- Passes until nothing is left, or one of them makes no progress, or their number runs out. -/
def passes : Nat → (items placed : List T) → Sweep T
  | 0, _, placed => ⟨placed, []⟩
  | fuel + 1, items, placed =>
    if items.isEmpty then ⟨placed, []⟩
    else
      let (after, kept) := pass ready items placed []
      if kept.length = items.length then ⟨after, kept⟩ else passes fuel kept after

/-- Every item was ready for the ones before it. -/
def Ordered (placed : List T) : Prop := ∀ front item back, placed = front ++ item :: back → ready front item = true

variable {ready}

theorem ordered_nil : Ordered ready [] := by
  intro front item back heq
  have hlength := congrArg List.length heq
  simp at hlength

theorem Ordered.concat {placed : List T} (hordered : Ordered ready placed) {item : T} (hready : ready placed item = true) :
    Ordered ready (placed ++ [item]) := by
  intro front other back heq
  obtain ⟨rest, rfl, hback⟩ | ⟨rest, rfl, hitem⟩ := List.append_eq_append_iff.mp heq
  · cases rest with
    | nil =>
      cases hback
      rw [List.append_nil]
      exact hready
    | cons first rest =>
      have hlength := congrArg List.length hback
      simp at hlength
  · cases rest with
    | nil =>
      cases hitem
      rw [List.append_nil] at hready
      exact hready
    | cons first rest =>
      cases hitem
      exact hordered front other rest rfl

/-- A pass splits its items in those that it places, in an order, and those that it keeps. -/
theorem pass_spec {items : List T} : ∀ {placed kept after rest : List T}, pass ready items placed kept = (after, rest) →
    Ordered ready placed → Ordered ready after ∧ placed ⊆ after ∧ (after ++ rest).Perm (placed ++ kept ++ items) := by
  induction items with
  | nil =>
    intro placed kept after rest hpass hordered
    cases hpass
    rw [List.append_nil]
    exact ⟨hordered, List.Subset.refl _, List.Perm.refl _⟩
  | cons item items ih =>
    intro placed kept after rest hpass hordered
    unfold pass at hpass
    split at hpass
    · next hready =>
      obtain ⟨hafter, hsub, hperm⟩ := ih hpass (hordered.concat hready)
      refine ⟨hafter, List.Subset.trans (List.subset_append_left placed [item]) hsub, hperm.trans ?_⟩
      rw [List.append_assoc, List.append_assoc, List.append_assoc, List.singleton_append]
      exact List.perm_middle.symm.append_left placed
    · obtain ⟨hafter, hsub, hperm⟩ := ih hpass hordered
      refine ⟨hafter, hsub, hperm.trans ?_⟩
      rw [List.append_assoc, List.append_assoc, List.append_assoc, List.singleton_append]

theorem pass_length {items : List T} : ∀ {placed kept after rest : List T}, pass ready items placed kept = (after, rest) →
    rest.length ≤ kept.length + items.length := by
  induction items with
  | nil =>
    intro placed kept after rest hpass
    cases hpass
    exact Nat.le_refl _
  | cons item items ih =>
    intro placed kept after rest hpass
    unfold pass at hpass
    rw [List.length_cons]
    split at hpass
    · have := ih hpass
      omega
    · have := ih hpass
      rw [List.length_append, List.length_singleton] at this
      omega

/-- A pass makes progress if one of its items is ready at its beginning. -/
theorem pass_progress {items : List T} : ∀ {placed kept after rest : List T},
    pass ready items placed kept = (after, rest) → (∃ item ∈ items, ready placed item = true) →
      rest.length < kept.length + items.length := by
  induction items with
  | nil => exact fun _ ⟨_, hmem, _⟩ => absurd hmem List.not_mem_nil
  | cons item items ih =>
    intro placed kept after rest hpass hsome
    unfold pass at hpass
    rw [List.length_cons]
    split at hpass
    · have := pass_length hpass
      omega
    · next hnot =>
      obtain ⟨other, hmem, hready⟩ := hsome
      obtain rfl | hmem := List.mem_cons.mp hmem
      · exact absurd hready hnot
      · have := ih hpass ⟨other, hmem, hready⟩
        rw [List.length_append, List.length_singleton] at this
        omega

/-- As long as some item is ready whenever there are items left, the passes place all of them. -/
theorem passes_complete {all : List T}
    (hnext : ∀ placed left : List T, (placed ++ left).Perm all → left ≠ [] → ∃ item ∈ left, ready placed item = true)
    {fuel : Nat} : ∀ {items placed : List T}, items.length < fuel → Ordered ready placed → (placed ++ items).Perm all →
      (passes ready fuel items placed).stuck = [] ∧ Ordered ready (passes ready fuel items placed).placed ∧
        (passes ready fuel items placed).placed.Perm all := by
  induction fuel with
  | zero => exact fun hfuel => absurd hfuel (Nat.not_lt_zero _)
  | succ fuel ih =>
    intro items placed hfuel hordered hperm
    unfold passes
    split
    · next hempty =>
      rw [List.isEmpty_iff] at hempty
      rw [hempty, List.append_nil] at hperm
      exact ⟨rfl, hordered, hperm⟩
    · next hsome =>
      cases hpass : pass ready items placed [] with
      | mk after kept =>
        have hready := hnext placed items hperm fun hnil => hsome (by rw [hnil]; rfl)
        have hprogress := pass_progress hpass hready
        rw [List.length_nil, Nat.zero_add] at hprogress
        obtain ⟨hafter, _, hsplit⟩ := pass_spec hpass hordered
        rw [List.append_nil] at hsplit
        dsimp only
        rw [if_neg (Nat.ne_of_lt hprogress)]
        exact ih (by omega) hafter (hsplit.trans hperm)

/-- Of finitely many items that do not depend on themselves, one depends on none of the others. -/
theorem exists_independent {depends : T → T → Prop} (hacyclic : ∀ item, ¬ Relation.TransGen depends item item)
    {left : List T} (hne : left ≠ []) : ∃ item ∈ left, ∀ other ∈ left, ¬ depends other item := by
  have hlift : ∀ a b : { item // item ∈ left }, Relation.TransGen (fun a b : { item // item ∈ left } => depends a b) a b →
      Relation.TransGen depends a b := by
    intro a b hpath
    induction hpath with
    | single hstep => exact .single hstep
    | tail _ hstep ih => exact ih.tail hstep
  have hfinite : Finite { item // item ∈ left } := left.finite_toSet.to_subtype
  have hirrefl : Std.Irrefl (Relation.TransGen fun a b : { item // item ∈ left } => depends a b) :=
    ⟨fun item hcycle => hacyclic item (hlift item item hcycle)⟩
  have hwf : WellFounded (Relation.TransGen fun a b : { item // item ∈ left } => depends a b) :=
    Finite.wellFounded_of_trans_of_irrefl _
  obtain ⟨first, hfirst⟩ := List.exists_mem_of_ne_nil left hne
  obtain ⟨item, _, hmin⟩ := hwf.has_min Set.univ ⟨⟨first, hfirst⟩, trivial⟩
  exact ⟨item, item.2, fun other hother hdepends => hmin ⟨other, hother⟩ trivial (.single hdepends)⟩

end sweep
