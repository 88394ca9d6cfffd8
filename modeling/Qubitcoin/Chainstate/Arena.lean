import Qubitcoin.Chain.VersionBits
import Qubitcoin.Chainstate.BestChain
import Qubitcoin.Chainstate.Variant

/-! Arenas that grow header by header: lookups by skip pointers, chains that are rebuilt for a new
    tip, and median times past along their branches. -/

open qubitcoin primitives block params chain qubitcoin.validation parentTree chainparams coins
  transition

namespace qubitcoin.chainstate

/-- The maps that come from a genesis entry by appending children of entries, each with its skip
    pointer. -/
inductive BlockMap.Grown : BlockMap → Prop
  | genesis {index : BlockIndex} (hprev : index.prev = none) (hheight : index.height = 0) (hskip : index.skip = none) :
    Grown ((BlockMap.new.insert index).build_skip_pointer 0)
  | child {self : BlockMap} {index prev : BlockIndex} {prev_idx : Nat} (hself : Grown self)
    (hat : self.indices[prev_idx]? = some prev) (hprev : index.prev = some prev_idx)
    (hheight : index.height = prev.height + 1) (hskip : index.skip = none) :
    Grown ((self.insert index).build_skip_pointer self.indices.length)

theorem tree_singleton {index : BlockIndex} (hprev : index.prev = none) (hheight : index.height = 0)
    (hskip : index.skip = none) : Tree [index] := by
  have hone : ∀ {idx : Nat} {other : BlockIndex}, [index][idx]? = some other → idx = 0 ∧ other = index := by
    intro idx other hat
    obtain ⟨hlt, heq⟩ := List.getElem?_eq_some_iff.mp hat
    obtain rfl : idx = 0 := Nat.lt_one_iff.mp hlt
    exact ⟨rfl, heq.symm⟩
  refine ⟨fun hat => ?_, fun hat hne => absurd (hone hat).1 hne, fun hat hsome => ?_⟩
  · rw [(hone hat).2]
    exact ⟨hprev, hheight⟩
  · rw [(hone hat).2, hskip] at hsome
    cases hsome

theorem BlockMap.Grown.tree {self : BlockMap} (hgrown : self.Grown) : Tree self.indices := by
  induction hgrown with
  | @genesis index hprev hheight hskip =>
    have htree : Tree (BlockMap.new.insert index).indices := tree_singleton hprev hheight hskip
    exact BlockMap.build_skip_pointer_tree htree Nat.one_pos
  | @child self index prev prev_idx _ hat hprev hheight hskip ih =>
    have htree : Tree (self.insert index).indices := ih.push hat hprev hheight hskip
    refine BlockMap.build_skip_pointer_tree htree ?_
    change self.indices.length < (self.indices ++ [index]).length
    rw [List.length_append, List.length_singleton]
    exact Nat.lt_succ_self _

/-- A lookup finds what following the parents one by one finds, with any fuel that the height
    allows, and nothing outside the heights of the branch. -/
theorem BlockMap.Grown.get_ancestor_eq_walk {self : BlockMap} (hgrown : self.Grown) {idx : Nat} {index : BlockIndex}
    (hat : self.indices[idx]? = some index) (target_height : Int) :
    (0 ≤ target_height ∧ target_height ≤ index.height →
      ∃ found, get_ancestor self.indices idx target_height = some found ∧
        ancestor (parent_of self.indices) (index.height - target_height).toNat idx = some found ∧
        (height_of self.indices found : Int) = target_height ∧
        ∀ fuel, index.height.toNat ≤ fuel →
          get_ancestor_loop self.indices target_height fuel idx index.height = some found) ∧
      (¬ (0 ≤ target_height ∧ target_height ≤ index.height) → get_ancestor self.indices idx target_height = none) := by
  have htree := hgrown.tree
  have hlt := (List.getElem?_eq_some_iff.mp hat).1
  have hheight := htree.height_eq hat
  have hlookup := htree.get_ancestor_eq hlt target_height
  rw [← hheight] at hlookup
  constructor
  · intro hrange
    have hsteps : height_of self.indices idx - target_height.toNat = (index.height - target_height).toNat := by omega
    obtain ⟨found, hfound, hlow⟩ := htree.leveled.ancestor_some
      (show (index.height - target_height).toNat ≤ height_of self.indices idx by omega)
    rw [if_pos hrange, hsteps, hfound] at hlookup
    refine ⟨found, hlookup, hfound, by omega, fun fuel hfuel => ?_⟩
    rw [hheight, htree.get_ancestor_loop_eq hrange.1 hlt (by omega) (by omega), hsteps]
    exact hfound
  · intro hrange
    rw [hlookup, if_neg hrange]

def two_entries : BlockMap :=
  (((BlockMap.new.insert .new).build_skip_pointer 0).insert
    { BlockIndex.new with block_hash := 1, height := 1, prev := some 0 }).build_skip_pointer 1

theorem two_entries_grown : two_entries.Grown := by
  have hgenesis : ((BlockMap.new.insert .new).build_skip_pointer 0).Grown := .genesis rfl rfl rfl
  exact @BlockMap.Grown.child _ _ .new 0 hgenesis rfl rfl rfl rfl

theorem two_entries_ancestor :
    get_ancestor two_entries.indices 1 0 = ancestor (parent_of two_entries.indices) 1 1 := by
  have hat : two_entries.indices[1]? =
      some { BlockIndex.new with block_hash := 1, height := 1, prev := some 0, skip := some 0 } := rfl
  obtain ⟨hinside, _⟩ := BlockMap.Grown.get_ancestor_eq_walk two_entries_grown hat 0
  obtain ⟨found, hfound, hwalk, _⟩ := hinside (by decide)
  exact hfound.trans hwalk.symm

end qubitcoin.chainstate

namespace qubitcoin.chain

/-- The loop of `find_fork`: the highest of the heights below a bound at which
    both chains have the same entry. -/
def Chain.find_fork_below (self other : Chain) : Nat → Option Int
  | 0 => none
  | h + 1 => if self.chain[h]? = other.chain[h]? then some h else find_fork_below self other h

/-- The height of the last common block of two chains. -/
def Chain.find_fork (self other : Chain) : Option Int :=
  let min_height := min self.height other.height
  if min_height < 0 then none else self.find_fork_below other (min_height.toNat + 1)

/-- Parents come before their children, heights rise by one from the genesis at
    height zero. -/
structure WellFormed (arena : List BlockIndex) : Prop where
  root : ∀ {index}, arena[0]? = some index → index.prev = none ∧ index.height = 0
  child : ∀ {idx index}, arena[idx]? = some index → idx ≠ 0 →
    ∃ prev_idx prev, index.prev = some prev_idx ∧ prev_idx < idx ∧ arena[prev_idx]? = some prev ∧
      index.height = prev.height + 1

/-- The arena without its skip pointers, which the chain never follows. -/
def without_skips (arena : List BlockIndex) : List BlockIndex :=
  arena.map fun index => { index with skip := none }

theorem getD_without_skips (arena : List BlockIndex) (idx : Nat) :
    (without_skips arena).getD idx .new = { arena.getD idx .new with skip := none } := by
  unfold without_skips
  rw [List.getD_eq_getElem?_getD, List.getD_eq_getElem?_getD, List.getElem?_map]
  cases arena[idx]? with
  | none => rfl
  | some index => rfl

theorem parent_of_without_skips (arena : List BlockIndex) : parent_of (without_skips arena) = parent_of arena := by
  funext idx
  rw [parent_of, parent_of, getD_without_skips]

theorem height_of_without_skips (arena : List BlockIndex) : height_of (without_skips arena) = height_of arena := by
  funext idx
  rw [height_of, height_of, getD_without_skips]

theorem WellFormed.tree {arena : List BlockIndex} (hformed : WellFormed arena) : Tree (without_skips arena) := by
  have hold : ∀ {idx : Nat} {index : BlockIndex}, (without_skips arena)[idx]? = some index →
      ∃ old, arena[idx]? = some old ∧ { old with skip := none } = index := by
    intro idx index hat
    unfold without_skips at hat
    rwa [List.getElem?_map, Option.map_eq_some_iff] at hat
  constructor
  · intro index hat
    obtain ⟨old, hold_at, rfl⟩ := hold hat
    have hroot := hformed.root hold_at
    exact hroot
  · intro idx index hat hne
    obtain ⟨old, hold_at, rfl⟩ := hold hat
    obtain ⟨prev_idx, prev, hprev, hlt, hprev_at, hheight⟩ := hformed.child hold_at hne
    refine ⟨prev_idx, { prev with skip := none }, hprev, hlt, ?_, hheight⟩
    unfold without_skips
    rw [List.getElem?_map, hprev_at]
    rfl
  · intro idx index skip_idx hat hskip
    obtain ⟨old, _, rfl⟩ := hold hat
    cases hskip

theorem ancestor_path_without_skips {arena : List BlockIndex} {tip : Nat} {chain : List Nat} :
    AncestorPath (without_skips arena) tip chain ↔ AncestorPath arena tip chain := by
  unfold AncestorPath
  rw [parent_of_without_skips, height_of_without_skips, without_skips, List.length_map]

theorem Chain.find_fork_below_spec {self other : Chain} {bound : Nat} :
    (∃ h, self.find_fork_below other bound = some (h : Nat) ∧ h < bound ∧ self.chain[h]? = other.chain[h]? ∧
      ∀ k, h < k → k < bound → self.chain[k]? ≠ other.chain[k]?) ∨
    (self.find_fork_below other bound = none ∧ ∀ k, k < bound → self.chain[k]? ≠ other.chain[k]?) := by
  induction bound with
  | zero => exact .inr ⟨rfl, fun k hk => absurd hk (Nat.not_lt_zero k)⟩
  | succ bound ih =>
    unfold find_fork_below
    by_cases hsame : self.chain[bound]? = other.chain[bound]?
    · rw [if_pos hsame]
      exact .inl ⟨bound, rfl, Nat.lt_succ_self _, hsame, fun k _ _ => by omega⟩
    · rw [if_neg hsame]
      obtain ⟨h, hfound, hlt, heq, habove⟩ | ⟨hnone, hdiffer⟩ := ih
      · refine .inl ⟨h, hfound, by omega, heq, fun k hk hbound => ?_⟩
        obtain rfl | hless := Nat.eq_or_lt_of_le (Nat.le_of_lt_succ hbound)
        · exact hsame
        · exact habove k hk hless
      · refine .inr ⟨hnone, fun k hbound => ?_⟩
        obtain rfl | hless := Nat.eq_or_lt_of_le (Nat.le_of_lt_succ hbound)
        · exact hsame
        · exact hdiffer k hless

theorem Tree.find_fork_path {arena : List BlockIndex} (htree : Tree arena) {tip b : Nat} {chain other : Chain}
    (hpath : AncestorPath arena tip chain.chain) (hother : AncestorPath arena b other.chain) :
    ∃ (h idx : Nat), chain.find_fork other = some (h : Int) ∧ chain.chain[h]? = some idx ∧ other.chain[h]? = some idx ∧
      ∀ common, common ∈ chain.chain → common ∈ other.chain → height_of arena common ≤ h := by
  have hlength := hpath.2.1
  have hlength_other := hother.2.1
  have hmin : (min chain.height other.height).toNat = min (height_of arena tip) (height_of arena b) := by
    unfold Chain.height
    omega
  have hnonneg : ¬ min chain.height other.height < 0 := by
    unfold Chain.height
    omega
  have hroot : ∀ {v : Nat} {path : Chain}, AncestorPath arena v path.chain → path.chain[0]? = some 0 := by
    intro v path hpath
    obtain ⟨found, hfound, hlow⟩ := htree.leveled.ancestor_some (Nat.le_refl (height_of arena v))
    have hzero := htree.eq_zero_of_height (Nat.lt_of_le_of_lt (htree.ancestor_le hfound) hpath.1) (by omega)
    rw [hpath.2.2 0 (Nat.zero_le _), Nat.sub_zero, hfound, hzero]
  unfold Chain.find_fork
  dsimp only
  rw [if_neg hnonneg, hmin]
  obtain ⟨h, hfound, hlt, heq, habove⟩ | ⟨_, hdiffer⟩ :=
    @Chain.find_fork_below_spec chain other (min (height_of arena tip) (height_of arena b) + 1)
  · have hin : h < chain.chain.length := by omega
    refine ⟨h, chain.chain[h], hfound, List.getElem?_eq_getElem hin, ?_, fun common hmem hmem_other => ?_⟩
    · rw [← heq, List.getElem?_eq_getElem hin]
    · obtain ⟨k, hk⟩ := List.mem_iff_getElem?.mp hmem
      obtain ⟨j, hj⟩ := List.mem_iff_getElem?.mp hmem_other
      have hheight := hpath.2.height_getElem? htree.leveled hk
      have hheight_other := hother.2.height_getElem? htree.leveled hj
      obtain rfl : k = j := by omega
      have hk_lt := (List.getElem?_eq_some_iff.mp hk).1
      have hj_lt := (List.getElem?_eq_some_iff.mp hj).1
      by_contra hhigh
      exact habove k (by omega) (by omega) (hk.trans hj.symm)
  · exact absurd ((hroot hpath).trans (hroot hother).symm) (hdiffer 0 (Nat.succ_pos _))

/-- A new tip leaves its own path in the chain, from any path or from nothing,
    and the forks of other paths are then found at the highest common block. -/
theorem Chain.set_tip_with_find_fork {arena : List BlockIndex} (hformed : WellFormed arena) {chain : Chain}
    (hchain : chain = .new ∨ ∃ old, AncestorPath arena old chain.chain) {tip : Nat} {index : BlockIndex}
    (hat : arena[tip]? = some index) {after : Chain}
    (hafter : after = chain.set_tip_with tip index.height (parent_of arena)) :
    ((after.chain.length : Int) = index.height + 1 ∧
      ∀ h : Nat, (h : Int) ≤ index.height →
        after.chain[h]? = ancestor (parent_of arena) (index.height - h).toNat tip) ∧
      ∀ {b : Nat} {other : Chain}, AncestorPath arena b other.chain →
        ∃ (h idx : Nat), after.find_fork other = some (h : Int) ∧ after.chain[h]? = some idx ∧
          other.chain[h]? = some idx ∧
          ∀ common, common ∈ after.chain → common ∈ other.chain → height_of arena common ≤ h := by
  have htree := hformed.tree
  have hlt := (List.getElem?_eq_some_iff.mp hat).1
  have hheight : index.height = height_of arena tip := by
    have hsame : (without_skips arena)[tip]? = some { index with skip := none } := by
      unfold without_skips
      rw [List.getElem?_map, hat]
      rfl
    rw [← height_of_without_skips, ← htree.height_eq hsame]
  have hsettled : Settled (without_skips arena) (resize (height_of (without_skips arena) tip + 1) chain.chain) := by
    obtain rfl | ⟨old, hold⟩ := hchain
    · exact htree.settled_resize_nil _
    · exact htree.settled_resize (ancestor_path_without_skips.mpr hold) _
  have hpath : AncestorPath arena tip after.chain := by
    have hnew := htree.set_tip_with_path (by rwa [without_skips, List.length_map]) hsettled
    rw [ancestor_path_without_skips, height_of_without_skips, parent_of_without_skips, ← hheight] at hnew
    rwa [hafter]
  have hlength := hpath.2.1
  refine ⟨⟨by omega, fun h hle => ?_⟩, fun {b other} hother => ?_⟩
  · rw [hpath.2.2 h (by omega), show height_of arena tip - h = (index.height - h).toNat by omega]
  · rw [← height_of_without_skips]
    exact htree.find_fork_path (ancestor_path_without_skips.mpr hpath) (ancestor_path_without_skips.mpr hother)

def forked_entries : List BlockIndex :=
  [.new, { BlockIndex.new with height := 1, prev := some 0 }, { BlockIndex.new with height := 1, prev := some 0 }]

theorem forked_entries_well_formed : WellFormed forked_entries := by
  constructor
  · rintro index ⟨⟩
    exact ⟨rfl, rfl⟩
  · intro idx index hat hne
    match idx, hat with
    | 1, hat | 2, hat =>
      cases hat
      exact ⟨0, .new, rfl, by decide, rfl, rfl⟩

theorem forked_entries_path {idx : Nat} (hidx : idx = 1 ∨ idx = 2) : AncestorPath forked_entries idx [0, idx] := by
  refine ⟨?_, ?_, fun h hle => ?_⟩
  · obtain rfl | rfl := hidx <;> decide
  · obtain rfl | rfl := hidx <;> rfl
  · obtain rfl | rfl := hidx
    · obtain rfl | rfl : h = 0 ∨ h = 1 := Nat.le_one_iff_eq_zero_or_eq_one.mp hle <;> rfl
    · obtain rfl | rfl : h = 0 ∨ h = 1 := Nat.le_one_iff_eq_zero_or_eq_one.mp hle <;> rfl

/-- The chain moves from one child of the genesis to the other. -/
theorem forked_entries_set_tip :
    ∃ (h idx : Nat), (Chain.mk [0, 1]).set_tip_with 2 1 (parent_of forked_entries) = ⟨[0, 2]⟩ ∧
      (Chain.mk [0, 2]).find_fork ⟨[0, 1]⟩ = some (h : Int) ∧ [0, 2][h]? = some idx := by
  have hafter : Chain.mk [0, 2] = (Chain.mk [0, 1]).set_tip_with 2 1 (parent_of forked_entries) := by decide
  have hat : forked_entries[2]? = some { BlockIndex.new with height := 1, prev := some 0 } := rfl
  obtain ⟨_, hfork⟩ := Chain.set_tip_with_find_fork forked_entries_well_formed
    (.inr ⟨1, forked_entries_path (.inl rfl)⟩) hat hafter
  obtain ⟨h, idx, hfound, hat, _⟩ := hfork (forked_entries_path (.inl rfl))
  exact ⟨h, idx, hafter.symm, hfound, hat⟩

end qubitcoin.chain

namespace qubitcoin.chainstate

theorem collect_ancestors_from_append {arena : List BlockIndex} (htree : Tree arena) (index : BlockIndex) {n : Nat} :
    ∀ {prev : Option Nat}, (∀ idx, prev = some idx → idx < arena.length) →
      collect_ancestors_from (arena ++ [index]) n prev = collect_ancestors_from arena n prev := by
  induction n with
  | zero => exact fun _ => rfl
  | succ n ih =>
    intro prev hprev
    cases prev with
    | none => rfl
    | some idx =>
      have hlt := hprev idx rfl
      have hat := List.getElem?_eq_getElem hlt
      rw [collect_ancestors_from, collect_ancestors_from, List.getElem?_append_left hlt, hat]
      dsimp only
      rw [ih]
      intro prev_idx hparent
      have hlink : parent_of arena idx = some prev_idx := by rwa [parent_of, getD_of_getElem? hat]
      exact Nat.lt_trans (htree.parent_lt hlink).1 hlt

theorem compute_mtp_append {arena : List BlockIndex} (htree : Tree arena) (index : BlockIndex) {idx : Nat}
    (hlt : idx < arena.length) : compute_mtp (arena ++ [index]) idx = compute_mtp arena idx := by
  unfold compute_mtp collect_mtp_ancestors
  rw [collect_ancestors_from_append htree]
  rintro _ ⟨⟩
  exact hlt

theorem contextual_check_block_header_median {header : BlockHeader} {prev_index : BlockIndex} {params : ConsensusParams}
    {arena : List BlockIndex} {prev_idx : Nat} {now : Int}
    (hcheck : contextual_check_block_header_with_arena header prev_index params arena prev_idx now = .ok ()) :
    compute_mtp arena prev_idx < header.time.toNat := by
  unfold contextual_check_block_header_with_arena at hcheck
  obtain ⟨_, _, hcheck⟩ := bind_eq_ok_iff.mp hcheck
  obtain ⟨_, _, hcheck⟩ := bind_eq_ok_iff.mp hcheck
  obtain ⟨_, _, hcheck⟩ := bind_eq_ok_iff.mp hcheck
  obtain ⟨_, _, hcheck⟩ := bind_eq_ok_iff.mp hcheck
  obtain ⟨_, htime, _⟩ := bind_eq_ok_iff.mp hcheck
  exact of_decide_eq_true (require_eq_ok.mp htime)

theorem timely_append {arena : List BlockIndex} (htree : Tree arena) (htimely : Timely arena) {index : BlockIndex}
    {prev_idx : Nat} (hlt : prev_idx < arena.length) (hprev : index.prev = some prev_idx)
    (htime : compute_mtp arena prev_idx < index.get_block_time) : Timely (arena ++ [index]) := by
  intro idx other_prev other hat hparent
  obtain hat | ⟨rfl, rfl⟩ := getElem?_concat_cases hat
  · have hlink : parent_of arena idx = some other_prev := by rwa [parent_of, getD_of_getElem? hat]
    have hbefore := (htree.parent_lt hlink).1
    rw [compute_mtp_append htree _ (Nat.lt_trans hbefore (List.getElem?_eq_some_iff.mp hat).1)]
    exact htimely hat hparent
  · rw [hprev, Option.some.injEq] at hparent
    subst hparent
    rwa [compute_mtp_append htree _ hlt]

theorem ChainstateManager.add_header_timely {self : ChainstateManager} (hindexed : self.Indexed) (env : Env)
    (htimely : Timely self.arena) {header : BlockHeader} {now : Int} {prev_idx : Nat}
    (hcheck : self.check_new_header env header now = .ok prev_idx) :
    Timely (self.add_header env header prev_idx).arena := by
  have hlt := hindexed.find_lt (check_new_header_ok env hcheck).1
  obtain ⟨skip, harena, _, _⟩ := hindexed.add_header_arena env header hlt
  rw [harena]
  unfold ChainstateManager.check_new_header at hcheck
  obtain ⟨_, _, hcheck⟩ := bind_eq_ok_iff.mp hcheck
  obtain ⟨other, _, hcheck⟩ := bind_eq_ok_iff.mp hcheck
  obtain ⟨_, hcontext, hcheck⟩ := bind_eq_ok_iff.mp hcheck
  cases hcheck
  have htime : compute_mtp self.arena prev_idx <
      ({ self.child_index env header prev_idx with skip } : BlockIndex).get_block_time :=
    contextual_check_block_header_median hcontext
  exact @timely_append _ hindexed.tree @htimely _ _ hlt rfl htime

section runs

open ChainstateManager

theorem timely_of_fixed {arena other : List BlockIndex} (htimely : Timely arena)
    (hfixed : other.map BlockIndex.fixed = arena.map BlockIndex.fixed) : Timely other := by
  intro idx prev_idx index hat hparent
  obtain ⟨old, hold, heq⟩ := getElem?_of_fixed hfixed hat
  have htime : old.time = index.time := by
    have := congrArg BlockIndex.time heq
    exact this
  have hmedian : compute_mtp other prev_idx = compute_mtp arena prev_idx := get_median_time_past_fixed hfixed _ _
  have hlater := htimely hold ((fixed_links heq).1.trans hparent)
  rw [BlockIndex.get_block_time, htime] at hlater
  rwa [hmedian]

theorem ChainstateManager.Indexed.accept_block_header_timely {self : ChainstateManager} (hindexed : self.Indexed) (env : Env)
    (htimely : Timely self.arena) (header : BlockHeader) (now : Int) :
    Timely (self.accept_block_header env header now).2.arena := by
  cases haccept : self.accept_block_header env header now with
  | mk result after =>
    cases result with
    | error e =>
      obtain rfl := accept_block_header_error env haccept
      exact htimely
    | ok idx =>
      obtain ⟨_, rfl⟩ | ⟨prev_idx, _, hcheck, _, rfl⟩ := accept_block_header_ok env haccept
      · exact htimely
      · exact ChainstateManager.add_header_timely hindexed env htimely hcheck

theorem ChainstateManager.Indexed.apply_timely {self : ChainstateManager} (hindexed : self.Indexed) (env : Env)
    (htimely : Timely self.arena) (event : Event) : Timely (self.apply env event).arena := by
  cases event with
  | block block now block_reader =>
    have hheader : Timely (self.accept_block_header env block.header now).2.arena :=
      @Indexed.accept_block_header_timely _ hindexed env htimely block.header now
    have hupdates := (process_new_block_processed env self block now block_reader).updates
    exact @timely_of_fixed _ _ hheader hupdates.fixed
  | header header now => exact @Indexed.accept_block_header_timely _ hindexed env htimely header now
  | file_pos hash file data_pos =>
    unfold ChainstateManager.apply ChainstateManager.set_file_pos
    dsimp only
    split
    · next idx _ =>
      have hupdates := Updates.update_entry self idx (fun index => Eq.refl { index with file, data_pos }.fixed)
      exact @timely_of_fixed _ _ htimely hupdates.fixed
    · exact htimely
  | undo_pos hash undo_pos =>
    unfold ChainstateManager.apply ChainstateManager.set_undo_pos
    dsimp only
    split
    · next idx _ =>
      have hupdates := Updates.update_entry self idx (fun index => Eq.refl { index with undo_pos }.fixed)
      exact @timely_of_fixed _ _ htimely hupdates.fixed
    · exact htimely
  | assume_valid hash => exact htimely

/-- In every run from the genesis block, whatever it is given, each block is later than the median
    of its parent, and the median does not fall from a block to its child. -/
theorem accepted_times_advance {env : Env} {params : ChainParams} {base : CoinsViewDB} {start after : ChainstateManager}
    {events : List Event} (hstart : FromGenesis env params base start) (hrun : Run env start events after) :
    Timely after.arena ∧ ∀ {idx prev_idx : Nat} {index : BlockIndex}, after.arena[idx]? = some index →
      index.prev = some prev_idx → compute_mtp after.arena prev_idx ≤ compute_mtp after.arena idx := by
  have hfirst : Timely start.arena := by
    obtain ⟨_, _, rfl⟩ := load_genesis_block_new env hstart
    intro idx prev_idx index hat hparent
    cases List.mem_singleton.mp (List.mem_of_getElem? hat)
    cases hparent
  have hkept : after.Sound ∧ Timely after.arena := by
    refine Trace.invariant (fun self => self.Sound ∧ Timely self.arena) ?_ hrun ⟨FromGenesis.sound env hstart, hfirst⟩
    rintro self event _ ⟨hsound, htimely⟩ rfl
    exact ⟨Sound.apply env hsound event, @Indexed.apply_timely _ hsound.toIndexed env htimely event⟩
  obtain ⟨hsound, htimely⟩ := hkept
  refine ⟨htimely, fun {idx prev_idx index} hat hparent => ?_⟩
  have hlink : parent_of after.arena idx = some prev_idx := by rwa [parent_of, getD_of_getElem? hat]
  have hlt := (hsound.tree.parent_lt hlink).1.trans (List.getElem?_eq_some_iff.mp hat).1
  exact compute_mtp_parent_le htimely hat hparent (List.getElem?_eq_getElem hlt)

theorem accepted_times_advance_first_block :
    Timely (regtest_manager.apply .op_true (.block first_block regtest_now none)).arena ∧
      ∀ {idx prev_idx : Nat} {index : BlockIndex},
        (regtest_manager.apply .op_true (.block first_block regtest_now none)).arena[idx]? = some index →
        index.prev = some prev_idx →
        compute_mtp (regtest_manager.apply .op_true (.block first_block regtest_now none)).arena prev_idx ≤
          compute_mtp (regtest_manager.apply .op_true (.block first_block regtest_now none)).arena idx :=
  accepted_times_advance regtest_manager_from_genesis (.cons rfl (.nil _))

end runs

/-- On a header chain whose times pass the check, the median time past of a
    block is no lower than that of its parent. -/
theorem median_time_past_not_decreasing {arena : List BlockIndex} (htimely : Timely arena) {idx prev_idx : Nat}
    {index prev : BlockIndex} (hat : arena[idx]? = some index) (hparent : index.prev = some prev_idx)
    (hprev : arena[prev_idx]? = some prev) : compute_mtp arena prev_idx ≤ compute_mtp arena idx :=
  compute_mtp_parent_le htimely hat hparent hprev

theorem signalling_arena_median :
    compute_mtp versionbits.signalling_arena 1 ≤ compute_mtp versionbits.signalling_arena 2 := by
  have hlast : versionbits.signalling_arena[2]? = some versionbits.signalling_arena[2] := rfl
  exact median_time_past_not_decreasing versionbits.signalling_arena_timely hlast rfl rfl

end qubitcoin.chainstate
