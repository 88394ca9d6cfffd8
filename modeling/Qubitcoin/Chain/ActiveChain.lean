import Qubitcoin.Chain.Ancestor

/-! The active chain after `set_tip_with`: the path from the root to the tip. -/

open qubitcoin.primitives parentTree

namespace qubitcoin.chain

/-- The list is the path of an entry of the arena. -/
def AncestorPath (arena : List BlockIndex) (tip : Nat) (chain : List Nat) : Prop :=
  tip < arena.length ∧ IsPath (parent_of arena) (height_of arena) tip chain

theorem length_resize (len : Nat) (entries : List Nat) : (resize len entries).length = len := by
  unfold resize
  simp only [List.length_append, List.length_take, List.length_replicate]
  omega

theorem getElem?_resize {len : Nat} {entries : List Nat} {h : Nat} (hlt : h < len) :
    (resize len entries)[h]? = some (entries[h]?.getD 0) := by
  unfold resize
  by_cases hin : h < entries.length
  · rw [List.getElem?_append_left (by simp; omega), List.getElem?_take_of_lt hlt, List.getElem?_eq_getElem hin]
    rfl
  · rw [List.getElem?_append_right (by simp; omega), List.getElem?_replicate, if_pos (by simp; omega),
      List.getElem?_eq_none (by omega)]
    rfl

/-- Where an entry stands at its own height, the ancestors of that entry stand
    below it. So the walk may stop at the first right entry. -/
def Settled (arena : List BlockIndex) (entries : List Nat) : Prop :=
  ∀ {h idx}, entries[h]? = some idx → height_of arena idx = h → ∀ {k}, k ≤ h →
    entries[k]? = ancestor (parent_of arena) (h - k) idx

theorem Tree.settled_resize {arena : List BlockIndex} (htree : Tree arena) {tip : Nat} {chain : List Nat}
    (hpath : AncestorPath arena tip chain) (len : Nat) : Settled arena (resize len chain) := by
  intro h idx hat hheight k hle
  have hlen : h < len := by
    have := (List.getElem?_eq_some_iff.mp hat).1
    rwa [length_resize] at this
  rw [getElem?_resize hlen, Option.some.injEq] at hat
  rw [getElem?_resize (by omega)]
  by_cases hin : h < chain.length
  · rw [List.getElem?_eq_getElem hin, Option.getD_some] at hat
    have hbelow := hpath.2.getElem?_below (List.getElem?_eq_some_iff.mpr ⟨hin, hat⟩) hle
    rw [← hbelow, List.getElem?_eq_getElem (by omega), Option.getD_some]
  · -- Past the old tip stands the root, at no height but zero.
    rw [List.getElem?_eq_none (by omega), Option.getD_none] at hat
    subst hat
    rw [htree.height_zero] at hheight
    obtain rfl : h = 0 := hheight.symm
    obtain rfl : k = 0 := by omega
    rw [List.getElem?_eq_none (by omega)]
    rfl

theorem Tree.settled_resize_nil {arena : List BlockIndex} (htree : Tree arena) (len : Nat) :
    Settled arena (resize len []) := by
  intro h idx hat hheight k hle
  have hlen : h < len := by
    have := (List.getElem?_eq_some_iff.mp hat).1
    rwa [length_resize] at this
  rw [getElem?_resize hlen] at hat
  cases hat
  have hzero : height_of arena 0 = h := hheight
  rw [htree.height_zero] at hzero
  subst hzero
  obtain rfl : k = 0 := by omega
  rw [getElem?_resize hlen]
  rfl

theorem Tree.set_tip_loop_spec {arena : List BlockIndex} (htree : Tree arena) (tip_height : Nat) {h : Nat} :
    ∀ (current : Nat) (entries : List Nat), height_of arena current = h → h < entries.length →
      (∀ i idx, i ≤ h → entries[i]? = some idx → height_of arena idx = i → ∀ k, k ≤ i →
        entries[k]? = ancestor (parent_of arena) (i - k) idx) →
      (set_tip_loop (parent_of arena) tip_height h current entries).length = entries.length ∧
      (∀ k, k ≤ h → (set_tip_loop (parent_of arena) tip_height h current entries)[k]? =
        ancestor (parent_of arena) (h - k) current) ∧
      ∀ k, h < k → (set_tip_loop (parent_of arena) tip_height h current entries)[k]? = entries[k]? := by
  induction h with
  | zero =>
    intro current entries hheight hlt hsettled
    have hparent : parent_of arena current = none := by
      cases hparent : parent_of arena current with
      | none => rfl
      | some prev_idx =>
        have := htree.leveled.child current prev_idx hparent
        omega
    unfold set_tip_loop
    by_cases hstop : entries[0]? = some current ∧ 0 < tip_height
    · rw [if_pos hstop]
      refine ⟨rfl, fun k hle => ?_, fun _ _ => rfl⟩
      obtain rfl : k = 0 := by omega
      exact hstop.1
    · rw [if_neg hstop, hparent]
      refine ⟨List.length_set, fun k hle => ?_, fun k hk => ?_⟩
      · obtain rfl : k = 0 := by omega
        exact List.getElem?_set_self hlt
      · exact List.getElem?_set_ne (by omega)
  | succ h ih =>
    intro current entries hheight hlt hsettled
    unfold set_tip_loop
    by_cases hstop : entries[h + 1]? = some current ∧ h + 1 < tip_height
    · rw [if_pos hstop]
      exact ⟨rfl, fun k hle => hsettled _ _ le_rfl hstop.1 hheight k hle, fun _ _ => rfl⟩
    · rw [if_neg hstop]
      obtain ⟨prev_idx, hparent⟩ : ∃ prev_idx, parent_of arena current = some prev_idx := by
        cases hparent : parent_of arena current with
        | none =>
          have := htree.leveled.root current hparent
          omega
        | some prev_idx => exact ⟨prev_idx, rfl⟩
      have hprev := htree.leveled.child current prev_idx hparent
      rw [hparent]
      dsimp only
      obtain ⟨hlength, hbelow, habove⟩ := ih prev_idx (entries.set (h + 1) current)
        (by omega) (by simp; omega) fun i idx hi hat hidx k hk => by
          rw [List.getElem?_set_ne (by omega)] at hat ⊢
          exact hsettled i idx (by omega) hat hidx k hk
      refine ⟨hlength.trans List.length_set, fun k hle => ?_, fun k hk => ?_⟩
      · by_cases htop : k = h + 1
        · subst htop
          rw [habove _ (by omega), List.getElem?_set_self hlt, Nat.sub_self]
          rfl
        · rw [hbelow k (by omega), show h + 1 - k = (h - k) + 1 by omega, ancestor, hparent]
          rfl
      · rw [habove k (by omega), List.getElem?_set_ne (by omega)]

theorem Tree.set_tip_with_path {arena : List BlockIndex} (htree : Tree arena) {chain : Chain} {tip : Nat}
    (hlt : tip < arena.length) (hsettled : Settled arena (resize (height_of arena tip + 1) chain.chain)) :
    AncestorPath arena tip (chain.set_tip_with tip (height_of arena tip) (parent_of arena)).chain := by
  have hlength := length_resize (height_of arena tip + 1) chain.chain
  obtain ⟨hresult, hbelow, _⟩ := htree.set_tip_loop_spec (height_of arena tip) tip
    (resize (height_of arena tip + 1) chain.chain) rfl (by rw [hlength]; omega)
    fun _ _ _ hat hheight _ hle => hsettled hat hheight hle
  refine ⟨hlt, ?_, fun h hle => ?_⟩ <;> unfold Chain.set_tip_with <;> rw [if_neg (by omega), Int.toNat_natCast]
  · exact hresult.trans hlength
  · exact hbelow h hle

end qubitcoin.chain
