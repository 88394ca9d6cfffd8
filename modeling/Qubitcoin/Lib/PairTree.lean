import Mathlib.Algebra.Free
import Mathlib.Data.Set.Function

/-! Trees that are built level by level from a list: neighbours are combined, and an odd last
    one moves up as it is. The root determines the list where nothing collides. -/

namespace pairTree

section

variable {α : Type} (combine : α → α → α)

def nextLevel : List α → List α
  | a :: b :: rest => combine a b :: nextLevel rest
  | level => level

/-- The way up to the root. Each pass leaves fewer, so that as many passes as there are leaves
    are enough. -/
def climb : Nat → List α → Option α
  | 0, level => level.head?
  | fuel + 1, level => if level.length ≤ 1 then level.head? else climb fuel (nextLevel combine level)

def levelPairs : List α → List (α × α)
  | a :: b :: rest => (a, b) :: levelPairs rest
  | _ => []

def combinedPairs (level : List α) : Set (α × α) :=
  { children | ∃ n, children ∈ levelPairs ((nextLevel combine)^[n] level) }

theorem length_nextLevel (level : List α) : (nextLevel combine level).length = (level.length + 1) / 2 := by
  fun_induction nextLevel combine level with
  | case1 a b rest ih =>
    rw [List.length_cons, List.length_cons, List.length_cons, ih]
    omega
  | case2 level hshort =>
    rcases level with _ | ⟨a, _ | ⟨b, rest⟩⟩
    · simp
    · simp
    · exact absurd rfl (hshort a b rest)

variable {combine}

theorem levelPairs_subset (level : List α) : ∀ children ∈ levelPairs level, children ∈ combinedPairs combine level :=
  fun _ hmem => ⟨0, hmem⟩

theorem combinedPairs_nextLevel (level : List α) :
    combinedPairs combine (nextLevel combine level) ⊆ combinedPairs combine level := by
  rintro children ⟨n, hmem⟩
  exact ⟨n + 1, hmem⟩

theorem combinedPairs_of_short {level : List α} (hshort : level.length ≤ 1) : combinedPairs combine level = ∅ := by
  have hsame : nextLevel combine level = level ∧ levelPairs level = [] := by
    rcases level with _ | ⟨a, _ | ⟨b, rest⟩⟩
    · exact ⟨rfl, rfl⟩
    · exact ⟨rfl, rfl⟩
    · exact absurd hshort (by rw [List.length_cons, List.length_cons]; omega)
  rw [Set.eq_empty_iff_forall_notMem]
  rintro children ⟨n, hmem⟩
  rw [Function.iterate_fixed hsame.1, hsame.2] at hmem
  cases hmem

/-- What is combined is combined at this level or above it. -/
theorem combinedPairs_subset (level : List α) :
    combinedPairs combine level ⊆ { children | children ∈ levelPairs level } ∪ combinedPairs combine (nextLevel combine level) := by
  rintro children ⟨n, hmem⟩
  cases n with
  | zero => exact .inl hmem
  | succ n => exact .inr ⟨n, hmem⟩

theorem nextLevel_map {β : Type} {f : α → β} {combine' : β → β → β} (hf : ∀ a b, f (combine a b) = combine' (f a) (f b))
    (level : List α) : nextLevel combine' (level.map f) = (nextLevel combine level).map f := by
  fun_induction nextLevel combine level with
  | case1 a b rest ih => rw [List.map_cons, List.map_cons, nextLevel, ih, List.map_cons, hf]
  | case2 level hshort =>
    rcases level with _ | ⟨a, _ | ⟨b, rest⟩⟩
    · rfl
    · rfl
    · exact absurd rfl (hshort a b rest)

theorem climb_map {β : Type} {f : α → β} {combine' : β → β → β} (hf : ∀ a b, f (combine a b) = combine' (f a) (f b))
    (fuel : Nat) : ∀ level : List α, climb combine' fuel (level.map f) = (climb combine fuel level).map f := by
  induction fuel with
  | zero => exact fun _ => List.head?_map
  | succ fuel ih =>
    intro level
    rw [climb, climb, List.length_map]
    split
    · exact List.head?_map
    · rw [nextLevel_map hf, ih]

end

section

variable {L α : Type} (leaf : L → α) (combine : α → α → α)

/-- What a tree over leaves is worth. -/
def value : FreeMagma L → α
  | .of a => leaf a
  | .mul left right => combine (value left) (value right)

/-- The leaves of a tree from left to right. -/
def leaves : FreeMagma L → List L
  | .of a => [a]
  | .mul left right => leaves left ++ leaves right

/-- The pairs combined within a tree are of a set, and so are its leaves. -/
def Within (atoms : Set L) (pairs : Set (α × α)) : FreeMagma L → Prop
  | .of a => a ∈ atoms
  | .mul left right =>
    Within atoms pairs left ∧ Within atoms pairs right ∧ (value leaf combine left, value leaf combine right) ∈ pairs

variable {leaf combine}

theorem flatMap_leaves_nextLevel (level : List (FreeMagma L)) :
    (nextLevel FreeMagma.mul level).flatMap leaves = level.flatMap leaves := by
  fun_induction nextLevel FreeMagma.mul level with
  | case1 a b rest ih =>
    rw [List.flatMap_cons, List.flatMap_cons, List.flatMap_cons, ih, leaves, List.append_assoc]
  | case2 level => rfl

theorem Within.nextLevel {atoms : Set L} {pairs : Set (α × α)} {level : List (FreeMagma L)}
    (hlevel : ∀ tree ∈ level, Within leaf combine atoms pairs tree)
    (hpairs : ∀ children ∈ levelPairs (level.map (value leaf combine)), children ∈ pairs) :
    ∀ tree ∈ nextLevel FreeMagma.mul level, Within leaf combine atoms pairs tree := by
  fun_induction pairTree.nextLevel FreeMagma.mul level with
  | case1 a b rest ih =>
    have hrest := ih (fun tree hmem => hlevel tree (List.mem_cons_of_mem _ (List.mem_cons_of_mem _ hmem)))
      (fun children hmem => hpairs children (List.mem_cons_of_mem _ hmem))
    intro tree hmem
    obtain rfl | hmem := List.mem_cons.mp hmem
    · exact ⟨hlevel a (by simp), hlevel b (by simp), hpairs _ List.mem_cons_self⟩
    · exact hrest tree hmem
  | case2 level => exact hlevel

/-- The way up ends at a tree with the leaves of the level, in their order. -/
theorem climb_trees {atoms : Set L} {pairs : Set (α × α)} {fuel : Nat} : ∀ {level : List (FreeMagma L)}, level ≠ [] →
    level.length ≤ fuel → (∀ tree ∈ level, Within leaf combine atoms pairs tree) →
      combinedPairs combine (level.map (value leaf combine)) ⊆ pairs →
        ∃ tree, climb FreeMagma.mul fuel level = some tree ∧ leaves tree = level.flatMap leaves ∧
          Within leaf combine atoms pairs tree := by
  have hshort : ∀ {fuel} {level : List (FreeMagma L)}, level ≠ [] → level.length ≤ 1 →
      (∀ tree ∈ level, Within leaf combine atoms pairs tree) → climb FreeMagma.mul fuel level = level.head? →
        ∃ tree, climb FreeMagma.mul fuel level = some tree ∧ leaves tree = level.flatMap leaves ∧
          Within leaf combine atoms pairs tree := by
    intro fuel level hnonempty hle hwithin hclimb
    obtain ⟨tree, rfl⟩ : ∃ tree, level = [tree] := by
      have hpos := List.length_pos_iff.mpr hnonempty
      exact List.length_eq_one_iff.mp (by omega)
    exact ⟨tree, hclimb, (List.append_nil _).symm, hwithin tree (List.mem_singleton_self _)⟩
  induction fuel with
  | zero =>
    intro level hnonempty hle hwithin _
    exact hshort hnonempty (by omega) hwithin rfl
  | succ fuel ih =>
    intro level hnonempty hle hwithin hpairs
    by_cases hone : level.length ≤ 1
    · exact hshort hnonempty hone hwithin (if_pos hone)
    · have hlength := length_nextLevel (FreeMagma.mul) level
      have hmap : (nextLevel FreeMagma.mul level).map (value leaf combine) =
          nextLevel combine (level.map (value leaf combine)) := (nextLevel_map (fun _ _ => rfl) level).symm
      obtain ⟨tree, hclimb, hleaves, htree⟩ := @ih (nextLevel FreeMagma.mul level)
        (List.length_pos_iff.mp (by omega)) (by omega)
        (Within.nextLevel hwithin fun children hmem => hpairs (levelPairs_subset _ _ hmem))
        (hmap ▸ (combinedPairs_nextLevel _).trans hpairs)
      exact ⟨tree, (if_neg hone).trans hclimb, hleaves.trans (flatMap_leaves_nextLevel level), htree⟩

/-- Trees of one value are equal where leaves and pairs are worth different things. -/
theorem Within.eq_of_value {atoms : Set L} {pairs : Set (α × α)} (hleaf : Set.InjOn leaf atoms)
    (hcombine : Set.InjOn (fun children : α × α => combine children.1 children.2) pairs)
    (hapart : ∀ a ∈ atoms, ∀ children ∈ pairs, leaf a ≠ combine children.1 children.2) {left : FreeMagma L} :
    ∀ {right : FreeMagma L}, Within leaf combine atoms pairs left → Within leaf combine atoms pairs right →
      value leaf combine left = value leaf combine right → left = right := by
  induction left using FreeMagma.rec with
  | of a =>
    intro right hleft hright heq
    cases right with
    | of b => exact congrArg FreeMagma.of (hleaf hleft hright heq)
    | mul first second => exact absurd heq (hapart a hleft _ hright.2.2)
  | mul first second ih_first ih_second =>
    intro right hleft hright heq
    cases right with
    | of b => exact absurd heq.symm (hapart b hright _ hleft.2.2)
    | mul third fourth =>
      have hchildren := Prod.mk.inj (hcombine hleft.2.2 hright.2.2 heq)
      exact congrArg₂ FreeMagma.mul (ih_first hleft.1 hright.1 hchildren.1) (ih_second hleft.2.1 hright.2.1 hchildren.2)

/-- The root over some leaves is what a tree with these leaves is worth. -/
theorem climb_map_leaf {atoms : Set L} {pairs : Set (α × α)} {fuel : Nat} {items : List L} (hnonempty : items ≠ [])
    (hfuel : items.length ≤ fuel) (hatoms : ∀ item ∈ items, item ∈ atoms)
    (hpairs : combinedPairs combine (items.map leaf) ⊆ pairs) :
    ∃ tree, climb combine fuel (items.map leaf) = some (value leaf combine tree) ∧ leaves tree = items ∧
      Within leaf combine atoms pairs tree := by
  have hmap : (items.map FreeMagma.of).map (value leaf combine) = items.map leaf := List.map_map
  obtain ⟨tree, hclimb, hleaves, hwithin⟩ := @climb_trees L α leaf combine atoms pairs fuel (items.map FreeMagma.of)
    (fun hnil => hnonempty (List.map_eq_nil_iff.mp hnil)) (by rwa [List.length_map])
    (fun tree hmem => by
      obtain ⟨item, hitem, rfl⟩ := List.mem_map.mp hmem
      exact hatoms item hitem)
    (by rwa [hmap])
  refine ⟨tree, ?_, ?_, hwithin⟩
  · rw [← hmap, @climb_map _ FreeMagma.mul _ _ _ (fun _ _ => rfl), hclimb]
    rfl
  · rw [hleaves, List.flatMap_map]
    exact List.flatMap_singleton' items

end

end pairTree
