import Qubitcoin.Chain.Index
import Qubitcoin.Lib.ParentTree

/-! Block arenas whose links form a tree: ancestor lookup by skip pointers finds
    the ancestor, and the active chain is filled with the path to its tip. -/

open qubitcoin.primitives parentTree

namespace qubitcoin.chain

def parent_of (arena : List BlockIndex) (idx : Nat) : Option Nat := (arena.getD idx .new).prev

def height_of (arena : List BlockIndex) (idx : Nat) : Nat := (arena.getD idx .new).height.toNat

theorem getD_of_getElem? {arena : List BlockIndex} {idx : Nat} {index : BlockIndex}
    (hat : arena[idx]? = some index) : arena.getD idx .new = index := by
  rw [List.getD_eq_getElem?_getD, hat, Option.getD_some]

theorem getD_of_length_le {arena : List BlockIndex} {idx : Nat} (hle : arena.length ≤ idx) :
    arena.getD idx .new = .new := by
  rw [List.getD_eq_getElem?_getD, List.getElem?_eq_none hle, Option.getD_none]

/-- The first entry is the root; every other entry hangs on an earlier one, one
    height up, and its skip pointer leads to the ancestor at its skip height. -/
structure Tree (arena : List BlockIndex) : Prop where
  root : ∀ {index}, arena[0]? = some index → index.prev = none ∧ index.height = 0
  child : ∀ {idx index}, arena[idx]? = some index → idx ≠ 0 →
    ∃ prev_idx prev, index.prev = some prev_idx ∧ prev_idx < idx ∧ arena[prev_idx]? = some prev ∧
      index.height = prev.height + 1
  skip : ∀ {idx index skip_idx}, arena[idx]? = some index → index.skip = some skip_idx →
    ancestor (parent_of arena) (height_of arena idx - (get_skip_height index.height).toNat) idx = some skip_idx

namespace Tree

variable {arena : List BlockIndex} (htree : Tree arena)
include htree

theorem height_nonneg {idx : Nat} : ∀ {index}, arena[idx]? = some index → 0 ≤ index.height := by
  induction idx using Nat.strongRecOn with
  | _ idx ih =>
    intro index hat
    by_cases hroot : idx = 0
    · subst hroot
      exact (htree.root hat).2.ge
    · obtain ⟨prev_idx, prev, _, hlt, hprev, hheight⟩ := htree.child hat hroot
      have := ih prev_idx hlt hprev
      omega

theorem height_eq {idx : Nat} {index : BlockIndex} (hat : arena[idx]? = some index) :
    index.height = height_of arena idx := by
  rw [height_of, getD_of_getElem? hat, Int.toNat_of_nonneg (htree.height_nonneg hat)]

theorem parent_lt {idx prev_idx : Nat} (hparent : parent_of arena idx = some prev_idx) :
    prev_idx < idx ∧ idx < arena.length := by
  by_cases hlt : idx < arena.length
  · have hat := List.getElem?_eq_getElem hlt
    rw [parent_of, getD_of_getElem? hat] at hparent
    by_cases hroot : idx = 0
    · subst hroot
      rw [(htree.root hat).1] at hparent
      cases hparent
    · obtain ⟨other, prev, hprev, hother, _⟩ := htree.child hat hroot
      rw [hparent] at hprev
      cases hprev
      exact ⟨hother, hlt⟩
  · rw [parent_of, getD_of_length_le (by omega)] at hparent
    cases hparent

theorem leveled : Leveled (parent_of arena) (height_of arena) where
  root idx hparent := by
    by_cases hlt : idx < arena.length
    · have hat := List.getElem?_eq_getElem hlt
      rw [parent_of, getD_of_getElem? hat] at hparent
      by_cases hroot : idx = 0
      · subst hroot
        rw [height_of, getD_of_getElem? hat, (htree.root hat).2]
        rfl
      · obtain ⟨_, _, hprev, _⟩ := htree.child hat hroot
        rw [hparent] at hprev
        cases hprev
    · rw [height_of, getD_of_length_le (by omega)]
      rfl
  child idx prev_idx hparent := by
    obtain ⟨hlt, hlength⟩ := htree.parent_lt hparent
    have hat := List.getElem?_eq_getElem hlength
    rw [parent_of, getD_of_getElem? hat] at hparent
    obtain ⟨other, prev, hprev, _, hprev_at, hheight⟩ := htree.child hat (by omega)
    rw [hparent] at hprev
    cases hprev
    have hidx := htree.height_eq hat
    have hprev_height := htree.height_eq hprev_at
    omega

theorem ancestor_le {n : Nat} : ∀ {idx found : Nat}, ancestor (parent_of arena) n idx = some found → found ≤ idx := by
  induction n with
  | zero =>
    intro idx found hfound
    cases hfound
    exact le_rfl
  | succ n ih =>
    intro idx found hfound
    rw [ancestor] at hfound
    obtain ⟨prev_idx, hparent, hfound⟩ := Option.bind_eq_some_iff.mp hfound
    have hlt := (htree.parent_lt hparent).1
    have hle := ih hfound
    omega

theorem ancestor_deep {n : Nat} : ∀ {idx found : Nat}, ancestor (parent_of arena) n idx = some found →
    n ≤ height_of arena idx := by
  induction n with
  | zero => exact fun _ => Nat.zero_le _
  | succ n ih =>
    intro idx found hfound
    rw [ancestor] at hfound
    obtain ⟨prev_idx, hparent, hfound⟩ := Option.bind_eq_some_iff.mp hfound
    have hheight := htree.leveled.child idx prev_idx hparent
    have hle := ih hfound
    omega

theorem eq_zero_of_height {idx : Nat} (hlt : idx < arena.length) (hheight : height_of arena idx = 0) : idx = 0 := by
  by_contra hroot
  have hat := List.getElem?_eq_getElem hlt
  obtain ⟨_, prev, _, _, hprev, heq⟩ := htree.child hat hroot
  have hidx := htree.height_eq hat
  have := htree.height_nonneg hprev
  omega

theorem height_zero : height_of arena 0 = 0 := by
  cases hat : arena[0]? with
  | none => rw [height_of, List.getD_eq_getElem?_getD, hat]; rfl
  | some index => rw [height_of, getD_of_getElem? hat, (htree.root hat).2]; rfl

end Tree

theorem invert_lowest_one_lt {n : Nat} (hpos : 0 < n) : invert_lowest_one n < n := by
  have hle : n &&& (n - 1) ≤ n - 1 := Nat.and_le_right
  unfold invert_lowest_one
  omega

theorem get_skip_height_bounds (height : Int) (hpos : 1 ≤ height) :
    0 ≤ get_skip_height height ∧ get_skip_height height < height := by
  unfold get_skip_height
  by_cases hlow : height < 2
  · rw [if_pos hlow]
    omega
  · rw [if_neg hlow]
    dsimp only
    split
    · have hfirst : invert_lowest_one (height.toNat - 1) < height.toNat - 1 := invert_lowest_one_lt (by omega)
      have hsecond : invert_lowest_one (invert_lowest_one (height.toNat - 1)) ≤ height.toNat - 2 := by
        by_cases hzero : invert_lowest_one (height.toNat - 1) = 0
        · rw [hzero]
          simp [invert_lowest_one]
        · have := invert_lowest_one_lt (Nat.pos_of_ne_zero hzero)
          omega
      omega
    · have := invert_lowest_one_lt (n := height.toNat) (by omega)
      omega

theorem Tree.get_ancestor_loop_eq {arena : List BlockIndex} (htree : Tree arena) {target_height : Int}
    (htarget : 0 ≤ target_height) {fuel : Nat} :
    ∀ {idx : Nat}, idx < arena.length → target_height ≤ height_of arena idx → height_of arena idx ≤ fuel →
      get_ancestor_loop arena target_height fuel idx (height_of arena idx) =
        ancestor (parent_of arena) (height_of arena idx - target_height.toNat) idx := by
  induction fuel with
  | zero =>
    intro idx _ hle hfuel
    unfold get_ancestor_loop
    rw [if_neg (by omega), show height_of arena idx - target_height.toNat = 0 by omega]
    rfl
  | succ fuel ih =>
    intro idx hlt hle hfuel
    have hat := List.getElem?_eq_getElem hlt
    unfold get_ancestor_loop
    by_cases hdone : target_height < (height_of arena idx : Int)
    · rw [if_pos hdone, hat]
      have hheight := htree.height_eq hat
      obtain ⟨hskip_low, hskip_high⟩ := get_skip_height_bounds (height_of arena idx) (by omega)
      dsimp only
      -- Whether the skip pointer is taken or not, the rest of the way is the same.
      split
      · next skip_idx hskip huse =>
        have hreach : target_height ≤ get_skip_height (height_of arena idx) := by
          simp only [Bool.or_eq_true, decide_eq_true_eq, Bool.and_eq_true] at huse
          omega
        have hjump := htree.skip hat hskip
        rw [hheight] at hjump
        have hskip_height := htree.leveled.height_ancestor (by omega) hjump
        have hskip_lt : skip_idx < arena.length := (htree.ancestor_le hjump).trans_lt hlt
        have hrest := ih hskip_lt (by omega) (by omega)
        rw [show get_skip_height (height_of arena idx) = (height_of arena skip_idx : Int) by omega, hrest,
          show height_of arena idx - target_height.toNat =
            (height_of arena idx - (get_skip_height (height_of arena idx)).toNat) +
              (height_of arena skip_idx - target_height.toNat) by omega,
          ancestor_add, hjump]
        rfl
      · have hroot : idx ≠ 0 := by
          rintro rfl
          rw [htree.height_zero] at hdone
          omega
        obtain ⟨prev_idx, prev, hprev, hprev_lt, hprev_at, hprev_height⟩ := htree.child hat hroot
        have hprev_eq := htree.height_eq hprev_at
        have hrest := ih (hprev_lt.trans hlt) (by omega) (by omega)
        have hparent : parent_of arena idx = some prev_idx := by
          rw [parent_of, getD_of_getElem? hat, hprev]
        rw [hprev]
        dsimp only
        rw [show (height_of arena idx : Int) - 1 = (height_of arena prev_idx : Int) by omega, hrest,
          show height_of arena idx - target_height.toNat =
            (height_of arena prev_idx - target_height.toNat) + 1 by omega, ancestor, hparent]
        rfl
    · rw [if_neg hdone, show height_of arena idx - target_height.toNat = 0 by omega]
      rfl

/-- `get_ancestor` finds the ancestor at every height from zero to that of the
    block, and nothing elsewhere. -/
theorem Tree.get_ancestor_eq {arena : List BlockIndex} (htree : Tree arena) {idx : Nat}
    (hlt : idx < arena.length) (target_height : Int) :
    get_ancestor arena idx target_height =
      if 0 ≤ target_height ∧ target_height ≤ height_of arena idx then
        ancestor (parent_of arena) (height_of arena idx - target_height.toNat) idx
      else none := by
  have hat := List.getElem?_eq_getElem hlt
  have hheight := htree.height_eq hat
  unfold get_ancestor
  rw [hat]
  dsimp only
  rw [hheight]
  by_cases hrange : 0 ≤ target_height ∧ target_height ≤ height_of arena idx
  · rw [if_neg (by omega), if_pos hrange, Int.toNat_natCast]
    exact htree.get_ancestor_loop_eq hrange.1 hlt hrange.2 le_rfl
  · rw [if_pos (by omega), if_neg hrange]

/-- What stays the same over the life of an entry. -/
def BlockIndex.fixed (self : BlockIndex) : BlockIndex :=
  { self with tx_count := 0, chain_tx_count := 0, status := .default, file := 0, data_pos := 0, undo_pos := 0 }

theorem getElem?_of_fixed {arena other : List BlockIndex}
    (hfixed : other.map BlockIndex.fixed = arena.map BlockIndex.fixed) {idx : Nat} {index : BlockIndex}
    (hat : other[idx]? = some index) : ∃ old, arena[idx]? = some old ∧ old.fixed = index.fixed := by
  have hmap : (other.map BlockIndex.fixed)[idx]? = some index.fixed := by rw [List.getElem?_map, hat]; rfl
  rw [hfixed, List.getElem?_map] at hmap
  exact Option.map_eq_some_iff.mp hmap

theorem getD_fixed {arena other : List BlockIndex}
    (hfixed : other.map BlockIndex.fixed = arena.map BlockIndex.fixed) (idx : Nat) :
    (other.getD idx .new).fixed = (arena.getD idx .new).fixed := by
  have hmap := congrArg (fun list => list[idx]?.getD (BlockIndex.fixed .new)) hfixed
  simp only [List.getElem?_map, Option.getD_map] at hmap
  simpa only [List.getD_eq_getElem?_getD] using hmap

theorem fixed_links {index other : BlockIndex} (hfixed : index.fixed = other.fixed) :
    index.prev = other.prev ∧ index.height = other.height ∧ index.skip = other.skip := by
  have hprev := congrArg BlockIndex.prev hfixed
  have hheight := congrArg BlockIndex.height hfixed
  have hskip := congrArg BlockIndex.skip hfixed
  exact ⟨hprev, hheight, hskip⟩

theorem parent_of_fixed {arena other : List BlockIndex}
    (hfixed : other.map BlockIndex.fixed = arena.map BlockIndex.fixed) : parent_of other = parent_of arena := by
  funext idx
  exact (fixed_links (getD_fixed hfixed idx)).1

theorem height_of_fixed {arena other : List BlockIndex}
    (hfixed : other.map BlockIndex.fixed = arena.map BlockIndex.fixed) : height_of other = height_of arena := by
  funext idx
  exact congrArg Int.toNat (fixed_links (getD_fixed hfixed idx)).2.1

theorem Tree.of_fixed {arena other : List BlockIndex} (htree : Tree arena)
    (hfixed : other.map BlockIndex.fixed = arena.map BlockIndex.fixed) : Tree other := by
  constructor
  · intro index hat
    obtain ⟨old, hold, heq⟩ := getElem?_of_fixed hfixed hat
    obtain ⟨hprev, hheight, _⟩ := fixed_links heq
    rw [← hprev, ← hheight]
    exact htree.root hold
  · intro idx index hat hidx
    obtain ⟨old, hold, heq⟩ := getElem?_of_fixed hfixed hat
    obtain ⟨hlink, hlevel, _⟩ := fixed_links heq
    obtain ⟨prev_idx, prev, hprev, hlt, hprev_at, hheight⟩ := htree.child hold hidx
    obtain ⟨new_prev, hnew_prev, heq_prev⟩ := getElem?_of_fixed hfixed.symm hprev_at
    refine ⟨prev_idx, new_prev, hlink ▸ hprev, hlt, hnew_prev, ?_⟩
    rw [← hlevel, hheight, (fixed_links heq_prev).2.1]
  · intro idx index skip_idx hat hskip
    obtain ⟨old, hold, heq⟩ := getElem?_of_fixed hfixed hat
    obtain ⟨_, hlevel, hold_skip⟩ := fixed_links heq
    rw [parent_of_fixed hfixed, height_of_fixed hfixed, ← hlevel]
    exact htree.skip hold (hold_skip.trans hskip)

theorem getElem?_concat_cases {arena : List BlockIndex} {index other : BlockIndex} {idx : Nat}
    (hat : (arena ++ [index])[idx]? = some other) :
    arena[idx]? = some other ∨ idx = arena.length ∧ other = index := by
  by_cases hlt : idx < arena.length
  · rw [List.getElem?_append_left hlt] at hat
    exact .inl hat
  · rw [List.getElem?_append_right (by omega), List.getElem?_singleton] at hat
    split at hat
    · next hzero =>
      cases hat
      exact .inr ⟨by omega, rfl⟩
    · cases hat

theorem getD_append_of_lt {arena : List BlockIndex} (rest : List BlockIndex) {idx : Nat}
    (hlt : idx < arena.length) : (arena ++ rest).getD idx .new = arena.getD idx .new := by
  rw [List.getD_eq_getElem?_getD, List.getElem?_append_left hlt, List.getD_eq_getElem?_getD]

theorem parent_of_append {arena : List BlockIndex} (rest : List BlockIndex) {idx : Nat}
    (hlt : idx < arena.length) : parent_of (arena ++ rest) idx = parent_of arena idx := by
  rw [parent_of, parent_of, getD_append_of_lt rest hlt]

theorem height_of_append {arena : List BlockIndex} (rest : List BlockIndex) {idx : Nat}
    (hlt : idx < arena.length) : height_of (arena ++ rest) idx = height_of arena idx := by
  rw [height_of, height_of, getD_append_of_lt rest hlt]

theorem Tree.ancestor_append {arena : List BlockIndex} (htree : Tree arena) (rest : List BlockIndex) {n idx : Nat}
    (hlt : idx < arena.length) :
    ancestor (parent_of (arena ++ rest)) n idx = ancestor (parent_of arena) n idx := by
  refine ancestor_congr (P := fun idx => idx < arena.length) (fun idx hlt => parent_of_append rest hlt) ?_ hlt
  intro idx prev_idx hlt hparent
  exact (htree.parent_lt hparent).1.trans hlt

theorem Tree.push {arena : List BlockIndex} (htree : Tree arena) {prev_idx : Nat} {prev index : BlockIndex}
    (hprev : arena[prev_idx]? = some prev) (hlink : index.prev = some prev_idx)
    (hheight : index.height = prev.height + 1) (hskip : index.skip = none) : Tree (arena ++ [index]) := by
  have hprev_lt : prev_idx < arena.length := (List.getElem?_eq_some_iff.mp hprev).1
  constructor
  · intro other hat
    obtain hat | ⟨hidx, _⟩ := getElem?_concat_cases hat
    · exact htree.root hat
    · omega
  · intro idx other hat hidx
    obtain hat | ⟨rfl, rfl⟩ := getElem?_concat_cases hat
    · obtain ⟨other_idx, entry, hother, hlt, hentry, hstep⟩ := htree.child hat hidx
      refine ⟨other_idx, entry, hother, hlt, ?_, hstep⟩
      rw [List.getElem?_append_left (List.getElem?_eq_some_iff.mp hentry).1, hentry]
    · exact ⟨prev_idx, prev, hlink, hprev_lt, by rw [List.getElem?_append_left hprev_lt, hprev], hheight⟩
  · intro idx other skip_idx hat hother
    obtain hat | ⟨_, rfl⟩ := getElem?_concat_cases hat
    · have hlt := (List.getElem?_eq_some_iff.mp hat).1
      rw [htree.ancestor_append _ hlt, height_of_append _ hlt]
      exact htree.skip hat hother
    · rw [hskip] at hother
      cases hother

theorem Tree.set_skip {arena : List BlockIndex} (htree : Tree arena) {idx skip_idx : Nat} {index : BlockIndex}
    (hat : arena[idx]? = some index)
    (hskip : ancestor (parent_of arena) (height_of arena idx - (get_skip_height index.height).toNat) idx =
      some skip_idx) :
    Tree (arena.modify idx fun index => { index with skip := some skip_idx }) := by
  set update : BlockIndex → BlockIndex := fun index => { index with skip := some skip_idx } with hupdate
  have hentry : ∀ i, (arena.modify idx update)[i]? = (arena[i]?).map fun entry => if idx = i then update entry else entry := by
    intro i
    rw [List.getElem?_modify]
    split <;> simp_all
  have hget : ∀ i, (arena.modify idx update).getD i .new =
      if idx = i then update (arena.getD i .new) else arena.getD i .new := by
    intro i
    rw [List.getD_eq_getElem?_getD, List.getD_eq_getElem?_getD, hentry]
    cases hi : arena[i]? with
    | some entry => rfl
    | none =>
      have hne : idx ≠ i := by
        rintro rfl
        rw [hat] at hi
        cases hi
      simp [hne]
  have hparent : parent_of (arena.modify idx update) = parent_of arena := by
    funext i
    rw [parent_of, parent_of, hget]
    split <;> rfl
  have hheight : height_of (arena.modify idx update) = height_of arena := by
    funext i
    rw [height_of, height_of, hget]
    split <;> rfl
  have hold : ∀ {i entry}, (arena.modify idx update)[i]? = some entry → ∃ old, arena[i]? = some old ∧
      entry.prev = old.prev ∧ entry.height = old.height ∧ (idx ≠ i → entry.skip = old.skip) := by
    intro i entry hi
    rw [hentry] at hi
    obtain ⟨old, hold, rfl⟩ := Option.map_eq_some_iff.mp hi
    refine ⟨old, hold, ?_, ?_, fun hne => ?_⟩
    · split <;> rfl
    · split <;> rfl
    · rw [if_neg hne]
  constructor
  · intro entry hi
    obtain ⟨old, hold, hprev, hheight, _⟩ := hold hi
    rw [hprev, hheight]
    exact htree.root hold
  · intro i entry hi hne
    obtain ⟨old, hat_old, hprev, hheight, _⟩ := hold hi
    obtain ⟨prev_idx, prev, hlink, hlt, hprev_at, hstep⟩ := htree.child hat_old hne
    have hnew : (arena.modify idx update)[prev_idx]? =
        some (if idx = prev_idx then update prev else prev) := by rw [hentry, hprev_at]; rfl
    refine ⟨prev_idx, _, hprev.trans hlink, hlt, hnew, ?_⟩
    rw [hheight, hstep]
    split <;> rfl
  · intro i entry other hi hother
    obtain ⟨old, hat_old, _, hentry_height, hkeep⟩ := hold hi
    rw [hparent, hheight, hentry_height]
    by_cases hsame : idx = i
    · subst hsame
      rw [hat] at hat_old
      cases hat_old
      rw [hentry, hat] at hi
      simp only [Option.map_some, if_true, Option.some.injEq] at hi
      subst hi
      cases hother
      exact hskip
    · exact htree.skip hat_old ((hkeep hsame).symm.trans hother)

theorem Tree.get_ancestor_append {arena : List BlockIndex} (htree : Tree arena) (rest : List BlockIndex)
    {idx : Nat} (hlt : idx < arena.length) (target_height : Int) :
    get_ancestor (arena ++ rest) idx target_height = get_ancestor arena idx target_height := by
  have hloop : ∀ fuel idx height, idx < arena.length → get_ancestor_loop (arena ++ rest) target_height fuel idx height =
      get_ancestor_loop arena target_height fuel idx height := by
    intro fuel
    induction fuel with
    | zero => exact fun _ _ _ => rfl
    | succ fuel ih =>
      intro idx height hlt
      unfold get_ancestor_loop
      rw [List.getElem?_append_left hlt]
      have hat := List.getElem?_eq_getElem hlt
      rw [hat]
      dsimp only
      split
      · split
        · next skip_idx hskip _ =>
          exact ih skip_idx _ ((htree.ancestor_le (htree.skip hat hskip)).trans_lt hlt)
        · split
          · rfl
          · next prev_idx hprev =>
            have hparent : parent_of arena idx = some prev_idx := by
              rw [parent_of, getD_of_getElem? hat, hprev]
            exact ih prev_idx _ ((htree.parent_lt hparent).1.trans hlt)
      · rfl
  unfold get_ancestor
  rw [List.getElem?_append_left hlt]
  split
  · rfl
  · split
    · rfl
    · exact hloop _ idx _ hlt

end qubitcoin.chain
