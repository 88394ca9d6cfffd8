import Mathlib.Data.List.Basic
import Mathlib.Tactic.Common

/-! Trees given by parent pointers, with a height for every node: ancestors and
    the path from a root to a node. -/

namespace parentTree

variable {V : Type} (parent : V → Option V) (height : V → Nat)

/-- The node that many steps up. -/
def ancestor : Nat → V → Option V
  | 0, v => some v
  | n + 1, v => (parent v).bind (ancestor n)

theorem ancestor_add (m n : Nat) (v : V) :
    ancestor parent (m + n) v = (ancestor parent m v).bind (ancestor parent n) := by
  induction m generalizing v with
  | zero => simp [ancestor]
  | succ m ih =>
    rw [Nat.add_right_comm]
    cases hparent : parent v with
    | none => simp [ancestor, hparent]
    | some p => simp [ancestor, hparent, ih]

/-- Nodes of two trees whose parents are related have related ancestors. -/
theorem ancestor_rel {W : Type} {parent : V → Option V} {other : W → Option W} {R : V → W → Prop}
    (hparent : ∀ {v w}, R v w → Option.Rel R (parent v) (other w)) {n : Nat} :
    ∀ {v : V} {w : W}, R v w → Option.Rel R (ancestor parent n v) (ancestor other n w) := by
  induction n with
  | zero => exact fun hrel => .some hrel
  | succ n ih =>
    intro v w hrel
    have hstep := hparent hrel
    unfold ancestor
    generalize parent v = p at hstep ⊢
    generalize other w = q at hstep ⊢
    cases hstep with
    | none => exact .none
    | some hstep => exact ih hstep

/-- Two parent functions that agree on a set closed under parents have the same
    ancestors there. -/
theorem ancestor_congr {parent other : V → Option V} {P : V → Prop} (hagree : ∀ v, P v → other v = parent v)
    (hclosed : ∀ v p, P v → parent v = some p → P p) {n : Nat} :
    ∀ {v : V}, P v → ancestor other n v = ancestor parent n v := by
  induction n with
  | zero => exact fun _ => rfl
  | succ n ih =>
    intro v hv
    rw [ancestor, ancestor, hagree v hv]
    cases hparent : parent v with
    | none => rfl
    | some p => exact ih (hclosed v p hv hparent)

/-- Roots have height zero, and a child is one above its parent. -/
structure Leveled : Prop where
  root : ∀ v, parent v = none → height v = 0
  child : ∀ v p, parent v = some p → height v = height p + 1

variable {parent height}

/-- Every node has an ancestor at each height up to its own. -/
theorem Leveled.ancestor_some (hlevel : Leveled parent height) {n : Nat} :
    ∀ {v : V}, n ≤ height v → ∃ a, ancestor parent n v = some a ∧ height a = height v - n := by
  induction n with
  | zero => exact fun {v} _ => ⟨v, rfl, rfl⟩
  | succ n ih =>
    intro v hle
    cases hparent : parent v with
    | none =>
      have := hlevel.root v hparent
      omega
    | some p =>
      have hheight := hlevel.child v p hparent
      obtain ⟨a, ha, hlow⟩ := ih (v := p) (by omega)
      refine ⟨a, by simp [ancestor, hparent, ha], by omega⟩

theorem Leveled.height_ancestor (hlevel : Leveled parent height) {n : Nat} {v a : V} (hle : n ≤ height v)
    (ha : ancestor parent n v = some a) : height a = height v - n := by
  obtain ⟨b, hb, hheight⟩ := hlevel.ancestor_some hle
  rw [ha] at hb
  cases hb
  exact hheight

variable (parent height) in
/-- The list holds the ancestors of a node by height, up to the node itself. -/
def IsPath (tip : V) (path : List V) : Prop :=
  path.length = height tip + 1 ∧ ∀ h, h ≤ height tip → path[h]? = ancestor parent (height tip - h) tip

theorem IsPath.getLast? {tip : V} {path : List V} (hpath : IsPath parent height tip path) :
    path.getLast? = some tip := by
  rw [List.getLast?_eq_getElem?, hpath.1, Nat.add_sub_cancel, hpath.2 _ (Nat.le_refl _), Nat.sub_self]
  rfl

theorem IsPath.unique {tip : V} {path other : List V} (hpath : IsPath parent height tip path)
    (hother : IsPath parent height tip other) : path = other := by
  apply List.ext_getElem?
  intro h
  by_cases hle : h ≤ height tip
  · rw [hpath.2 h hle, hother.2 h hle]
  · have hlength := hpath.1
    have hlength_other := hother.1
    rw [List.getElem?_eq_none (by omega), List.getElem?_eq_none (by omega)]

/-- The paths of related nodes show the same of their entries. -/
theorem IsPath.map_eq {W B : Type} {other_parent : W → Option W} {other_height : W → Nat} {R : V → W → Prop}
    (hrel : ∀ {v w}, R v w → Option.Rel R (parent v) (other_parent w)) {tip : V} {other : W} (htip : R tip other)
    (hheight : height tip = other_height other) {path : List V} {path_other : List W}
    (hpath : IsPath parent height tip path) (hother : IsPath other_parent other_height other path_other) {f : V → B}
    {g : W → B} (hmap : ∀ {v w}, R v w → f v = g w) : path.map f = path_other.map g := by
  apply List.ext_getElem?
  intro h
  rw [List.getElem?_map, List.getElem?_map]
  by_cases hle : h ≤ height tip
  · rw [hpath.2 h hle, hother.2 h (by omega), ← hheight]
    have hup : Option.Rel R (ancestor parent (height tip - h) tip) (ancestor other_parent (height tip - h) other) :=
      ancestor_rel hrel htip
    generalize ancestor parent (height tip - h) tip = v at hup ⊢
    generalize ancestor other_parent (height tip - h) other = w at hup ⊢
    cases hup with
    | none => rfl
    | some hup => exact congrArg some (hmap hup)
  · have hlength := hpath.1
    have hlength_other := hother.1
    rw [List.getElem?_eq_none (by omega), List.getElem?_eq_none (by omega)]
    rfl

/-- Below an entry of a path lie the ancestors of that entry. -/
theorem IsPath.getElem?_below {tip v : V} {path : List V}
    (hpath : IsPath parent height tip path) {h k : Nat} (hat : path[h]? = some v) (hle : k ≤ h) :
    path[k]? = ancestor parent (h - k) v := by
  have hh : h ≤ height tip := by
    have hlt := (List.getElem?_eq_some_iff.mp hat).1
    have := hpath.1
    omega
  have hup : ancestor parent (height tip - h) tip = some v := by rw [← hpath.2 h hh, hat]
  have hsplit : height tip - k = (height tip - h) + (h - k) := by omega
  rw [hpath.2 k (by omega), hsplit, ancestor_add, hup]
  rfl

/-- The entry at a height has that height. -/
theorem IsPath.height_getElem? (hlevel : Leveled parent height) {tip v : V} {path : List V}
    (hpath : IsPath parent height tip path) {h : Nat} (hat : path[h]? = some v) : height v = h := by
  have hh : h ≤ height tip := by
    have hlt := (List.getElem?_eq_some_iff.mp hat).1
    have := hpath.1
    omega
  have hup : ancestor parent (height tip - h) tip = some v := by rw [← hpath.2 h hh, hat]
  have := hlevel.height_ancestor (by omega) hup
  omega

/-- Two nodes that are on the paths of each other are one. -/
theorem IsPath.eq_of_mem (hlevel : Leveled parent height) {tip other : V} {path others : List V}
    (hpath : IsPath parent height tip path) (hother : IsPath parent height other others) (hmem : tip ∈ others)
    (hmem_other : other ∈ path) : tip = other := by
  obtain ⟨h, hat⟩ := List.mem_iff_getElem?.mp hmem
  obtain ⟨k, hat_other⟩ := List.mem_iff_getElem?.mp hmem_other
  have hheight := hother.height_getElem? hlevel hat
  have hheight_other := hpath.height_getElem? hlevel hat_other
  have hlt := (List.getElem?_eq_some_iff.mp hat).1
  have hlt_other := (List.getElem?_eq_some_iff.mp hat_other).1
  have hlength := hpath.1
  have hlength_other := hother.1
  have hlast := hother.getLast?
  rw [List.getLast?_eq_getElem?, show others.length - 1 = h by omega, hat] at hlast
  exact Option.some.inj hlast

/-- The entries up to a height are the path of the entry there. -/
theorem IsPath.take (hlevel : Leveled parent height) {tip v : V} {path : List V}
    (hpath : IsPath parent height tip path) {h : Nat} (hat : path[h]? = some v) :
    IsPath parent height v (path.take (h + 1)) := by
  have hheight := hpath.height_getElem? hlevel hat
  have hlt := (List.getElem?_eq_some_iff.mp hat).1
  refine ⟨by rw [List.length_take]; omega, fun k hle => ?_⟩
  rw [hheight] at hle ⊢
  rw [List.getElem?_take_of_lt (by omega)]
  exact hpath.getElem?_below hat hle

/-- Two paths with the same entry at a height are the same below it. -/
theorem IsPath.agree_below {tip other : V} {path path_other : List V}
    (hpath : IsPath parent height tip path) (hother : IsPath parent height other path_other) {h k : Nat} {v : V}
    (hat : path[h]? = some v) (hat_other : path_other[h]? = some v) (hle : k ≤ h) :
    path[k]? = path_other[k]? := by
  rw [hpath.getElem?_below hat hle, hother.getElem?_below hat_other hle]

/-- A child extends the path of its parent. -/
theorem IsPath.child (hlevel : Leveled parent height) {tip v : V} {path : List V}
    (hpath : IsPath parent height tip path) (hparent : parent v = some tip) :
    IsPath parent height v (path ++ [v]) := by
  have hheight := hlevel.child v tip hparent
  have hlength := hpath.1
  refine ⟨by simp [hlength, hheight], fun h hle => ?_⟩
  by_cases htop : h = height v
  · subst htop
    rw [List.getElem?_append_right (by omega), hlength, hheight, Nat.sub_self]
    rfl
  · have hsplit : height v - h = (height tip - h) + 1 := by omega
    rw [List.getElem?_append_left (by omega), hpath.2 h (by omega), hsplit, ancestor, hparent]
    rfl

end parentTree
