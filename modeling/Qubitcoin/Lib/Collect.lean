import Mathlib.Algebra.Order.BigOperators.Group.List
import Mathlib.Data.List.Dedup
import Mathlib.Data.List.Infix
import Mathlib.Data.List.DropRight
import Mathlib.Logic.Function.Iterate

/-! Loops that append what they find to a list, unless it is there already. -/

namespace collect

variable {A : Type} [DecidableEq A]

/-- Append what is new. -/
def push (seen : List A) (found : A) : List A := if found ∈ seen then seen else seen ++ [found]

theorem mem_pushes {found : List A} {x : A} : ∀ {seen : List A}, x ∈ found.foldl push seen ↔ x ∈ seen ∨ x ∈ found := by
  induction found with
  | nil => exact fun {seen} => ⟨.inl, fun hor => hor.resolve_right List.not_mem_nil⟩
  | cons y rest ih =>
    intro seen
    rw [List.foldl_cons, ih, List.mem_cons, ← or_assoc]
    unfold push
    split
    · next hmem =>
      rw [or_assoc]
      refine ⟨Or.imp_right .inr, ?_⟩
      rintro (hold | rfl | hrest)
      · exact .inl hold
      · exact .inl hmem
      · exact .inr hrest
    · rw [List.mem_append, List.mem_singleton]

theorem nodup_pushes {found : List A} : ∀ {seen : List A}, (found.foldl push seen).Nodup ↔ seen.Nodup := by
  induction found with
  | nil => exact fun {seen} => Iff.rfl
  | cons y rest ih =>
    intro seen
    rw [List.foldl_cons, ih]
    unfold push
    split
    · exact Iff.rfl
    · next hnew =>
      rw [← List.concat_eq_append, List.nodup_concat]
      exact ⟨fun h => h.2, fun h => ⟨hnew, h⟩⟩

/-- The collected list is in the order of the first finds: it is in a given order when each
    first find is in it with all that was found before. -/
theorem pairwise_pushes {R : A → A → Prop} {found : List A} :
    (found.foldl push []).Pairwise R ↔
      ∀ before x, before ++ [x] <+: found → x ∉ before → ∀ earlier ∈ before, R earlier x := by
  induction found using List.reverseRecOn with
  | nil =>
    refine ⟨fun _ before x hfront => ?_, fun _ => .nil⟩
    exact absurd (List.prefix_nil.mp hfront) (by simp)
  | append_singleton found last ih =>
    have hsplit : (∀ before x, before ++ [x] <+: found ++ [last] → x ∉ before → ∀ earlier ∈ before, R earlier x) ↔
        (last ∉ found → ∀ earlier ∈ found, R earlier last) ∧ (found.foldl push []).Pairwise R := by
      rw [ih]
      constructor
      · refine fun hall => ⟨hall found last (List.prefix_refl _), fun before x hfront => ?_⟩
        exact hall before x (hfront.trans (List.prefix_append found [last]))
      · rintro ⟨hlast, hall⟩ before x hfront
        obtain hwhole | hfront := List.prefix_concat_iff.mp hfront
        · obtain ⟨rfl, hx⟩ := List.append_inj' hwhole rfl
          cases hx
          exact hlast
        · exact hall before x hfront
    rw [hsplit, List.foldl_append, List.foldl_cons, List.foldl_nil]
    by_cases hmem : last ∈ found.foldl push []
    · rw [push, if_pos hmem]
      rw [mem_pushes] at hmem
      exact ⟨fun hpairs => ⟨fun hnot => absurd (hmem.resolve_left List.not_mem_nil) hnot, hpairs⟩, fun h => h.2⟩
    · rw [push, if_neg hmem]
      rw [mem_pushes, or_iff_right List.not_mem_nil] at hmem
      rw [List.pairwise_append, and_comm]
      simp only [List.mem_singleton, forall_eq, mem_pushes, List.not_mem_nil, false_or, List.pairwise_singleton, true_and]
      exact ⟨fun h => ⟨fun _ => h.1, h.2⟩, fun h => ⟨h.1 hmem, h.2⟩⟩

/-- A loop that appends each item in any case, and then what is new below it. -/
def gather (below : A → List A) (seen items : List A) : List A :=
  items.foldl (fun seen item => (below item).foldl push (seen ++ [item])) seen

section

variable {below : A → List A} {R : A → A → Prop} (hbelow : ∀ item x, x ∈ item :: below item ↔ R item x)
include hbelow

theorem mem_gather {items : List A} {x : A} : ∀ {seen : List A},
    x ∈ gather below seen items ↔ x ∈ seen ∨ ∃ item ∈ items, R item x := by
  induction items with
  | nil => exact fun {seen} => ⟨.inl, fun hor => hor.resolve_right fun ⟨item, hitem, _⟩ => List.not_mem_nil hitem⟩
  | cons item rest ih =>
    intro seen
    unfold gather at ih ⊢
    have hitem : x ∈ (below item).foldl push (seen ++ [item]) ↔ x ∈ seen ∨ R item x := by
      rw [mem_pushes, List.mem_append, List.mem_singleton, or_assoc, ← List.mem_cons, hbelow]
    rw [List.foldl_cons, ih, hitem, or_assoc]
    simp only [List.mem_cons, exists_eq_or_imp]

/-- No item is listed twice when none is below an earlier one. -/
theorem nodup_gather {items : List A} : ∀ {seen : List A},
    (gather below seen items).Nodup ↔
      seen.Nodup ∧ (∀ item ∈ items, item ∉ seen) ∧ items.Pairwise fun earlier item => ¬ R earlier item := by
  induction items with
  | nil => exact fun {seen} => ⟨fun h => ⟨h, nofun, .nil⟩, fun h => h.1⟩
  | cons item rest ih =>
    intro seen
    unfold gather at ih ⊢
    have hseen : ∀ x, x ∉ (below item).foldl push (seen ++ [item]) ↔ x ∉ seen ∧ ¬ R item x := by
      intro x
      rw [mem_pushes, List.mem_append, List.mem_singleton, or_assoc, ← List.mem_cons, hbelow, not_or]
    rw [List.foldl_cons, ih, nodup_pushes, ← List.concat_eq_append, List.nodup_concat, List.concat_eq_append,
      List.pairwise_cons, List.forall_mem_cons]
    simp only [hseen]
    constructor
    · rintro ⟨⟨hitem, hnodup⟩, hrest, hpairs⟩
      exact ⟨hnodup, ⟨hitem, fun x hx => (hrest x hx).1⟩, fun x hx => (hrest x hx).2, hpairs⟩
    · rintro ⟨hnodup, ⟨hitem, hrest⟩, hfirst, hpairs⟩
      exact ⟨⟨hitem, hnodup⟩, fun x hx => ⟨hrest x hx, hfirst x hx⟩, hpairs⟩

end

end collect

/-! The end of a list: entries taken off it one at a time or while they satisfy a predicate. -/

namespace trailing

variable {α : Type} {p : α → Bool}

theorem rdropWhile_append_of_pos {front back : List α} (hback : ∀ a ∈ back, p a = true) :
    (front ++ back).rdropWhile p = front.rdropWhile p := by
  unfold List.rdropWhile
  rw [List.reverse_append, List.dropWhile_append_of_pos]
  intro a hmem
  exact hback a (List.mem_reverse.mp hmem)

theorem rdropWhile_of_neg {list : List α} (hneg : ∀ a ∈ list, p a = false) : list.rdropWhile p = list := by
  rw [List.rdropWhile_eq_self_iff]
  intro hne
  rw [hneg _ (List.getLast_mem hne)]
  exact Bool.false_ne_true

/-- What is last once a tail is dropped is the last element outside the predicate. -/
theorem getLast?_rdropWhile (p : α → Bool) (list : List α) :
    (list.rdropWhile p).getLast? = (list.filter fun a => !p a).getLast? := by
  induction list using List.reverseRecOn with
  | nil => rfl
  | append_singleton list a ih =>
    rw [List.rdropWhile_concat, List.filter_append]
    cases h : p a with
    | true => simp [h, ih]
    | false => simp [h]

theorem iterate_dropLast (n : Nat) (list : List α) : List.dropLast^[n] list = list.take (list.length - n) := by
  induction n with
  | zero => simp
  | succ n ih =>
    rw [Function.iterate_succ_apply', ih, List.dropLast_eq_take, List.length_take, List.take_take]
    congr 1
    omega

end trailing
