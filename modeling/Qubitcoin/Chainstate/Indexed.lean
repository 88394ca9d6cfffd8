import Qubitcoin.Chainstate.Growth

/-! The block index of a manager stays a tree of headers, found by their hashes. -/

open qubitcoin primitives transaction block coins params check validation_state chain chainparams
  qubitcoin.validation parentTree

namespace qubitcoin.chainstate

theorem lookup_insert_hash (map : HashMap BlockHash Nat) (key query : BlockHash) (value : Nat) :
    (map.insert key value).lookup query = if query = key then some value else map.lookup query := by
  by_cases h : query = key
  · subst h
    simp
  · simp [h, AList.lookup_insert_ne h]

theorem modify_append_last (arena : List BlockIndex) (index : BlockIndex) (update : BlockIndex → BlockIndex) :
    (arena ++ [index]).modify arena.length update = arena ++ [update index] := by
  apply List.ext_getElem?
  intro i
  rw [ChainstateManager.getElem?_modify_eq]
  rcases Nat.lt_trichotomy i arena.length with hlt | rfl | hgt
  · rw [List.getElem?_append_left hlt, List.getElem?_append_left hlt]
    simp [Nat.ne_of_gt hlt]
  · simp
  · rw [List.getElem?_eq_none (by simp; omega), List.getElem?_eq_none (by simp; omega)]
    rfl

theorem BlockMap.build_skip_pointer_cases {self : BlockMap} (htree : Tree self.indices) {idx : Nat}
    (hlt : idx < self.indices.length) :
    self.build_skip_pointer idx = self ∨
    ∃ skip_idx, self.build_skip_pointer idx = self.get_mut idx (fun index => { index with skip := some skip_idx }) ∧
      ancestor (parent_of self.indices) (height_of self.indices idx - (get_skip_height (self.get idx).height).toNat)
        idx = some skip_idx := by
  have hat := List.getElem?_eq_getElem hlt
  have hget : self.get idx = self.indices[idx] := getD_of_getElem? hat
  have hheight := htree.height_eq hat
  unfold BlockMap.build_skip_pointer
  dsimp only
  split
  · exact .inl rfl
  · next hpos =>
    split
    · exact .inl rfl
    · next prev_idx hprev =>
      split
      · exact .inl rfl
      · next skip_idx hskip =>
        refine .inr ⟨skip_idx, rfl, ?_⟩
        have hparent : parent_of self.indices idx = some prev_idx := hprev
        have hlevel := htree.leveled.child idx prev_idx hparent
        have hprev_lt := (htree.parent_lt hparent).1
        rw [hget, hheight] at hpos hskip ⊢
        obtain ⟨hlow, hhigh⟩ := get_skip_height_bounds (height_of self.indices idx) (by omega)
        rw [htree.get_ancestor_eq (hprev_lt.trans hlt), if_pos (by omega)] at hskip
        rw [show height_of self.indices idx - (get_skip_height (height_of self.indices idx)).toNat =
            (height_of self.indices prev_idx - (get_skip_height (height_of self.indices idx)).toNat) + 1 by omega,
          ancestor, hparent]
        exact hskip

theorem BlockMap.build_skip_pointer_tree {self : BlockMap} (htree : Tree self.indices) {idx : Nat}
    (hlt : idx < self.indices.length) : Tree (self.build_skip_pointer idx).indices := by
  have hat := List.getElem?_eq_getElem hlt
  obtain hsame | ⟨skip_idx, hset, hskip⟩ := BlockMap.build_skip_pointer_cases htree hlt
  · rw [hsame]
    exact htree
  · rw [hset]
    rw [show self.get idx = self.indices[idx] from getD_of_getElem? hat] at hskip
    exact htree.set_skip hat hskip

namespace ChainstateManager

/-- The invariant of the block index: a tree of entries found by their hashes, each
    with the data that follows from its parent. -/
structure Indexed (manager : ChainstateManager) : Prop where
  tree : Tree manager.arena
  nonempty : 0 < manager.arena.length
  by_hash : ∀ {hash : BlockHash} {idx : Nat}, manager.block_index.find_by_hash hash = some idx ↔
    ∃ index, manager.arena[idx]? = some index ∧ index.block_hash = hash
  root : ∀ {index : BlockIndex}, manager.arena[0]? = some index → index.prev_blockhash = 0 ∧ index.time_max = index.time
  child : ∀ {idx prev_idx : Nat} {index prev : BlockIndex}, manager.arena[idx]? = some index → index.prev = some prev_idx →
    manager.arena[prev_idx]? = some prev → index.prev_blockhash = prev.block_hash ∧
      index.time_max = max prev.time_max index.time ∧ index.chain_work = prev.chain_work + get_block_proof index
  height_lt : ∀ {idx : Nat} {index : BlockIndex}, manager.arena[idx]? = some index → index.height < 2 ^ 31

variable {self : ChainstateManager}

theorem Indexed.hash_injective (hindexed : self.Indexed) {idx other : Nat} {index other_index : BlockIndex}
    (hat : self.arena[idx]? = some index) (hother : self.arena[other]? = some other_index)
    (hhash : index.block_hash = other_index.block_hash) : idx = other := by
  have hleft := hindexed.by_hash.mpr ⟨index, hat, rfl⟩
  have hright := hindexed.by_hash.mpr ⟨other_index, hother, rfl⟩
  rw [hhash, hright] at hleft
  exact (Option.some.inj hleft).symm

theorem Indexed.find_lt (hindexed : self.Indexed) {hash : BlockHash} {idx : Nat}
    (hfound : self.block_index.find_by_hash hash = some idx) : idx < self.arena.length := by
  obtain ⟨index, hat, _⟩ := hindexed.by_hash.mp hfound
  exact (List.getElem?_eq_some_iff.mp hat).1

theorem entry_eq {idx : Nat} {index : BlockIndex} (hat : self.arena[idx]? = some index) : self.entry idx = index :=
  getD_of_getElem? hat

theorem getElem?_entry {idx : Nat} (hlt : idx < self.arena.length) : self.arena[idx]? = some (self.entry idx) := by
  rw [List.getElem?_eq_getElem hlt]
  exact congrArg some (entry_eq (List.getElem?_eq_getElem hlt)).symm

theorem entry_update_entry (self : ChainstateManager) (idx i : Nat) (update : BlockIndex → BlockIndex) :
    (self.update_entry idx update).entry i =
      if idx = i ∧ i < self.arena.length then update (self.entry i) else self.entry i := by
  by_cases hlt : i < self.arena.length
  · apply entry_eq
    refine (getElem?_modify_eq self.arena idx i update).trans ?_
    rw [getElem?_entry hlt]
    by_cases heq : idx = i <;> simp [heq, hlt]
  · rw [if_neg (by omega)]
    have hle : self.arena.length ≤ i := by omega
    have hafter : (self.arena.modify idx update).length ≤ i := by rwa [List.length_modify]
    exact (getD_of_length_le hafter).trans (getD_of_length_le hle).symm

theorem Indexed.of_updates {after : ChainstateManager} (hindexed : self.Indexed) (hupdates : Updates self after) :
    after.Indexed := by
  have hold : ∀ {idx : Nat} {index : BlockIndex}, after.arena[idx]? = some index → ∃ old, self.arena[idx]? = some old ∧
      old.fixed = index.fixed := fun hat => getElem?_of_fixed hupdates.fixed hat
  have hnew : ∀ {idx : Nat} {index : BlockIndex}, self.arena[idx]? = some index → ∃ new, after.arena[idx]? = some new ∧
      new.fixed = index.fixed := fun hat => getElem?_of_fixed hupdates.fixed.symm hat
  have hhash : ∀ {index other : BlockIndex}, index.fixed = other.fixed → index.block_hash = other.block_hash :=
    fun heq => by
      have := congrArg BlockIndex.block_hash heq
      exact this
  constructor
  · exact hindexed.tree.of_fixed hupdates.fixed
  · rw [hupdates.length]
    exact hindexed.nonempty
  · intro hash idx
    unfold BlockMap.find_by_hash
    rw [hupdates.by_hash]
    refine hindexed.by_hash.trans ⟨?_, ?_⟩
    · rintro ⟨index, hat, rfl⟩
      obtain ⟨new, hnew, heq⟩ := hnew hat
      exact ⟨new, hnew, hhash heq⟩
    · rintro ⟨index, hat, rfl⟩
      obtain ⟨old, hold, heq⟩ := hold hat
      exact ⟨old, hold, hhash heq⟩
  · intro index hat
    obtain ⟨old, hold, heq⟩ := hold hat
    have hroot := hindexed.root hold
    have hprev := congrArg BlockIndex.prev_blockhash heq
    have hmax := congrArg BlockIndex.time_max heq
    have htime := congrArg BlockIndex.time heq
    exact ⟨hprev.symm.trans hroot.1, hmax.symm.trans (hroot.2.trans htime)⟩
  · intro idx prev_idx index prev hat hlink hprev
    obtain ⟨old, hold_at, heq⟩ := hold hat
    obtain ⟨old_prev, hold_prev, heq_prev⟩ := hold hprev
    have hparent := hindexed.child hold_at ((fixed_links heq).1.trans hlink) hold_prev
    have hhashes := congrArg BlockIndex.prev_blockhash heq
    have hmax := congrArg BlockIndex.time_max heq
    have htime := congrArg BlockIndex.time heq
    have hwork := congrArg BlockIndex.chain_work heq
    have hbits := congrArg get_block_proof heq
    have hprev_max := congrArg BlockIndex.time_max heq_prev
    have hprev_work := congrArg BlockIndex.chain_work heq_prev
    simp only [BlockIndex.fixed, get_block_proof] at hhashes hmax htime hwork hbits hprev_max hprev_work
    refine ⟨?_, ?_, ?_⟩
    · rw [← hhashes, hparent.1, hhash heq_prev]
    · rw [← hmax, hparent.2.1, hprev_max, htime]
    · rw [← hwork, hparent.2.2, hprev_work, get_block_proof, get_block_proof, hbits]
  · intro idx index hat
    obtain ⟨old, hold, heq⟩ := hold hat
    have hheight := hindexed.height_lt hold
    rwa [(fixed_links heq).2.1] at hheight

variable (env : Env)

theorem check_new_header_ok {header : BlockHeader} {now : Int} {prev_idx : Nat}
    (hcheck : self.check_new_header env header now = .ok prev_idx) :
    self.block_index.find_by_hash header.prev_blockhash = some prev_idx ∧
      (self.entry prev_idx).status.has_failed = false ∧ IntType.i32.fits ((self.entry prev_idx).height + 1) ∧
      check_proof_of_work (header.block_hash env.hash256) header.bits self.params.consensus = true := by
  unfold check_new_header at hcheck
  obtain ⟨_, hpow, hcheck⟩ := bind_eq_ok_iff.mp hcheck
  obtain ⟨other, hparent, hcheck⟩ := bind_eq_ok_iff.mp hcheck
  obtain ⟨_, hcontext, hcheck⟩ := bind_eq_ok_iff.mp hcheck
  cases hcheck
  unfold contextual_check_block_header_with_arena at hcontext
  obtain ⟨_, hheight, _⟩ := bind_eq_ok_iff.mp hcontext
  unfold find_parent at hparent
  split at hparent
  · cases hparent
  · next hfound =>
    split at hparent
    · cases hparent
    · next hfailed =>
      cases hparent
      exact ⟨hfound, by simpa using hfailed, (checked_eq_ok.mp hheight).2, require_eq_ok.mp hpow⟩

theorem Indexed.add_header_arena (hindexed : self.Indexed) (header : BlockHeader) {prev_idx : Nat}
    (hlt : prev_idx < self.arena.length) :
    ∃ skip, (self.add_header env header prev_idx).arena =
        self.arena ++ [{ self.child_index env header prev_idx with skip }] ∧
      (self.add_header env header prev_idx).block_index.by_hash =
        self.block_index.by_hash.insert (header.block_hash env.hash256) self.arena.length ∧
      Tree (self.add_header env header prev_idx).arena := by
  set map := self.block_index.insert (self.child_index env header prev_idx) with hmap
  have hpush : Tree map.indices :=
    hindexed.tree.push (getElem?_entry hlt) rfl rfl rfl
  have hlast : self.arena.length < map.indices.length := by
    simp [hmap, BlockMap.insert, arena]
  have htree : Tree (self.add_header env header prev_idx).arena := BlockMap.build_skip_pointer_tree hpush hlast
  obtain hsame | ⟨skip_idx, hset, _⟩ := BlockMap.build_skip_pointer_cases hpush hlast
  · refine ⟨none, ?_, ?_, htree⟩
    · exact congrArg BlockMap.indices hsame
    · exact congrArg BlockMap.by_hash hsame
  · refine ⟨some skip_idx, ?_, ?_, htree⟩
    · refine (congrArg BlockMap.indices hset).trans ?_
      exact modify_append_last self.arena _ _
    · exact congrArg BlockMap.by_hash hset

theorem Indexed.add_header (hindexed : self.Indexed) {header : BlockHeader} {now : Int} {prev_idx : Nat}
    (hnew : self.block_index.find_by_hash (header.block_hash env.hash256) = none)
    (hcheck : self.check_new_header env header now = .ok prev_idx) :
    (self.add_header env header prev_idx).Indexed := by
  obtain ⟨hfound, _, hfits, _⟩ := check_new_header_ok env hcheck
  have hlt := hindexed.find_lt hfound
  have hprev := getElem?_entry hlt
  obtain ⟨skip, harena, hhash, htree⟩ := hindexed.add_header_arena env header hlt
  have hold : ∀ {idx : Nat} {index : BlockIndex}, (self.add_header env header prev_idx).arena[idx]? = some index →
      self.arena[idx]? = some index ∨ idx = self.arena.length ∧
        index = { self.child_index env header prev_idx with skip } := by
    intro idx index hat
    rw [harena] at hat
    exact getElem?_concat_cases hat
  have hkeep : ∀ {idx : Nat} {index : BlockIndex}, self.arena[idx]? = some index →
      (self.add_header env header prev_idx).arena[idx]? = some index := by
    intro idx index hat
    rw [harena, List.getElem?_append_left (List.getElem?_eq_some_iff.mp hat).1, hat]
  constructor
  · exact htree
  · rw [harena]
    simp
  · intro hash idx
    unfold BlockMap.find_by_hash at hnew ⊢
    rw [hhash, lookup_insert_hash]
    constructor
    · intro hlookup
      split at hlookup
      · next heq =>
        cases hlookup
        exact ⟨_, by rw [harena, List.getElem?_append_right le_rfl, Nat.sub_self]; rfl, heq.symm⟩
      · obtain ⟨index, hat, hindex⟩ := hindexed.by_hash.mp hlookup
        exact ⟨index, hkeep hat, hindex⟩
    · rintro ⟨index, hat, rfl⟩
      obtain hat | ⟨rfl, rfl⟩ := hold hat
      · have hfound := hindexed.by_hash.mpr ⟨index, hat, rfl⟩
        rw [if_neg]
        · exact hfound
        · intro heq
          unfold BlockMap.find_by_hash at hfound
          rw [heq, hnew] at hfound
          cases hfound
      · exact if_pos rfl
  · intro index hat
    obtain hat | ⟨hidx, _⟩ := hold hat
    · exact hindexed.root hat
    · have := hindexed.nonempty
      omega
  · intro idx other index other_index hat hlink hother
    obtain hat | ⟨rfl, rfl⟩ := hold hat
    · obtain ⟨hlt_other, _⟩ := hindexed.tree.parent_lt (by rw [parent_of, getD_of_getElem? hat, hlink])
      have hidx := (List.getElem?_eq_some_iff.mp hat).1
      obtain hother | ⟨heq, _⟩ := hold hother
      · exact hindexed.child hat hlink hother
      · omega
    · cases hlink
      rw [hkeep hprev] at hother
      cases hother
      obtain ⟨index, hat, heq⟩ := hindexed.by_hash.mp hfound
      rw [hprev] at hat
      cases hat
      exact ⟨heq.symm, rfl, rfl⟩
  · intro idx index hat
    obtain hat | ⟨_, rfl⟩ := hold hat
    · exact hindexed.height_lt hat
    · exact hfits.2

theorem Indexed.accept_block_header (hindexed : self.Indexed) (header : BlockHeader) (now : Int) :
    (self.accept_block_header env header now).2.Indexed ∧
      ∀ idx, (self.accept_block_header env header now).1 = .ok idx →
        (self.accept_block_header env header now).2.block_index.find_by_hash (header.block_hash env.hash256) =
          some idx := by
  cases haccept : self.accept_block_header env header now with
  | mk result after =>
    cases result with
    | error e =>
      obtain rfl := accept_block_header_error env haccept
      exact ⟨hindexed, nofun⟩
    | ok idx =>
      obtain ⟨hfound, rfl⟩ | ⟨prev_idx, hnew, hcheck, rfl, rfl⟩ := accept_block_header_ok env haccept
      · refine ⟨hindexed, fun idx hidx => ?_⟩
        cases hidx
        exact hfound
      · refine ⟨hindexed.add_header env hnew hcheck, fun idx hidx => ?_⟩
        cases hidx
        obtain ⟨hfound, _⟩ := check_new_header_ok env hcheck
        obtain ⟨_, _, hhash, _⟩ := hindexed.add_header_arena env header (hindexed.find_lt hfound)
        unfold BlockMap.find_by_hash
        rw [hhash, lookup_insert_hash, if_pos rfl]

end ChainstateManager

end qubitcoin.chainstate

/-! Activation makes the active chain the path to the best tip, whatever becomes of
    the blocks on the way. -/

namespace qubitcoin.chainstate

namespace ChainstateManager

variable {self : ChainstateManager}

theorem build_chain_path_loop_spec {arena : List BlockIndex} (htree : Tree arena) {h : Nat} :
    ∀ (current : Nat) (path : List Nat), height_of arena current = h → h < path.length →
      (build_chain_path_loop (parent_of arena) h current path).length = path.length ∧
      (∀ k, k ≤ h → (build_chain_path_loop (parent_of arena) h current path)[k]? =
        ancestor (parent_of arena) (h - k) current) ∧
      ∀ k, h < k → (build_chain_path_loop (parent_of arena) h current path)[k]? = path[k]? := by
  induction h with
  | zero =>
    intro current path hheight hlt
    unfold build_chain_path_loop
    cases hparent : parent_of arena current with
    | some prev_idx =>
      have := htree.leveled.child current prev_idx hparent
      omega
    | none =>
      refine ⟨List.length_set, fun k hle => ?_, fun k hk => List.getElem?_set_ne (by omega)⟩
      obtain rfl : k = 0 := by omega
      exact List.getElem?_set_self hlt
  | succ h ih =>
    intro current path hheight hlt
    unfold build_chain_path_loop
    cases hparent : parent_of arena current with
    | none =>
      have := htree.leveled.root current hparent
      omega
    | some prev_idx =>
      have hprev := htree.leveled.child current prev_idx hparent
      obtain ⟨hlength, hbelow, habove⟩ := ih prev_idx (path.set (h + 1) current) (by omega) (by simp; omega)
      refine ⟨hlength.trans List.length_set, fun k hle => ?_, fun k hk => ?_⟩
      · by_cases htop : k = h + 1
        · subst htop
          dsimp only
          rw [habove _ (by omega), List.getElem?_set_self hlt, Nat.sub_self]
          rfl
        · dsimp only
          rw [hbelow k (by omega), show h + 1 - k = (h - k) + 1 by omega, ancestor, hparent]
          rfl
      · dsimp only
        rw [habove k (by omega), List.getElem?_set_ne (by omega)]

theorem Indexed.build_chain_path (hindexed : self.Indexed) {idx : Nat} (hlt : idx < self.arena.length) :
    AncestorPath self.arena idx (self.build_chain_path idx) := by
  obtain ⟨hlength, hbelow, _⟩ := build_chain_path_loop_spec hindexed.tree idx
    (List.replicate (height_of self.arena idx + 1) 0) rfl (by simp)
  exact ⟨hlt, hlength.trans (by simp), hbelow⟩

theorem mem_heights_up {low high h : Int} : h ∈ heights_up low high ↔ low < h ∧ h ≤ high := by
  unfold heights_up
  rw [List.mem_map]
  constructor
  · rintro ⟨i, hi, rfl⟩
    have := List.mem_range.mp hi
    omega
  · rintro ⟨hlow, hhigh⟩
    exact ⟨(h - low - 1).toNat, List.mem_range.mpr (by omega), by omega⟩

theorem mem_heights_down {low high h : Int} : h ∈ heights_down low high ↔ low < h ∧ h ≤ high := by
  unfold heights_down
  rw [List.mem_map]
  constructor
  · rintro ⟨i, hi, rfl⟩
    have := List.mem_range.mp hi
    omega
  · rintro ⟨hlow, hhigh⟩
    exact ⟨(high - h).toNat, List.mem_range.mpr (by omega), by omega⟩

theorem Indexed.path_zero (hindexed : self.Indexed) {tip : Nat} {path : List Nat}
    (hpath : AncestorPath self.arena tip path) : path[0]? = some 0 := by
  have hlevel := hindexed.tree.leveled
  obtain ⟨found, hfound, hheight⟩ := hlevel.ancestor_some (n := height_of self.arena tip) (v := tip) le_rfl
  have hlt : found < self.arena.length := (hindexed.tree.ancestor_le hfound).trans_lt hpath.1
  rw [hpath.2.2 0 (Nat.zero_le _), Nat.sub_zero, hfound,
    hindexed.tree.eq_zero_of_height hlt (by omega)]

theorem Indexed.find_fork_height (hindexed : self.Indexed) {tip other : Nat} {path : List Nat}
    (hchain : AncestorPath self.arena tip self.chain.chain) (hpath : AncestorPath self.arena other path) :
    ∃ fork : Nat, self.find_fork_height path self.chain.height = fork ∧ fork ≤ height_of self.arena tip ∧
      fork ≤ height_of self.arena other ∧
      ∀ k, k ≤ fork → self.chain.chain[k]? = path[k]? ∧ (self.chain.chain[k]?).isSome = true := by
  have hlength := hchain.2.1
  have hlength_path := hpath.2.1
  have hheight : self.chain.height = height_of self.arena tip := by
    unfold Chain.height
    omega
  have hget : ∀ k : Nat, self.chain.get_block_index k = self.chain.chain[k]? := by
    intro k
    unfold Chain.get_block_index
    rw [if_neg (by omega), Int.toNat_natCast]
  unfold ChainstateManager.find_fork_height
  dsimp only
  have hsome : ((heights_down (-1) (min self.chain.height (path.length - 1))).find?
      (self.same_block_at path)).isSome = true := by
    rw [List.find?_isSome]
    refine ⟨((0 : Nat) : Int), mem_heights_down.mpr (by omega), ?_⟩
    unfold same_block_at
    rw [hget, hindexed.path_zero hchain]
    simp [hindexed.path_zero hpath]
  obtain ⟨h, hfound⟩ := Option.isSome_iff_exists.mp hsome
  have hmem := mem_heights_down.mp (List.mem_of_find?_eq_some hfound)
  have hsame := List.find?_some hfound
  obtain ⟨fork, rfl⟩ : ∃ fork : Nat, h = fork := ⟨h.toNat, by omega⟩
  unfold same_block_at at hsame
  rw [hget, Int.toNat_natCast] at hsame
  refine ⟨fork, by rw [hfound]; rfl, by omega, by omega, fun k hle => ?_⟩
  have hin : fork < self.chain.chain.length := by omega
  rw [List.getElem?_eq_getElem hin] at hsame
  have hsame : path[fork]? = some self.chain.chain[fork] := by simpa using hsame
  have heq := hchain.2.agree_below hpath.2 (List.getElem?_eq_getElem hin) hsame hle
  exact ⟨heq, by rw [List.getElem?_eq_getElem (by omega)]; rfl⟩

theorem heights_down_cons {low high : Int} (hlt : low < high) :
    heights_down low high = high :: heights_down low (high - 1) := by
  unfold heights_down
  obtain ⟨n, hn⟩ : ∃ n : Nat, high - low = n + 1 := ⟨(high - low - 1).toNat, by omega⟩
  have hrest : high - 1 - low = n := by omega
  have hsucc : (high - low).toNat = n + 1 := by omega
  rw [hsucc, hrest, Int.toNat_natCast, List.range_succ_eq_map, List.map_cons, List.map_map]
  congr 1
  · simp
  · apply List.map_congr_left
    intro i _
    simp only [Function.comp_apply]
    omega

theorem heights_down_self (h : Int) : heights_down h h = [] := by simp [heights_down]

theorem heights_up_succ (h : Int) : heights_up h (h + 1) = [h + 1] := by simp [heights_up, List.range_succ]

theorem Indexed.build_chain_path_child (hindexed : self.Indexed) {tip idx : Nat}
    (hchain : AncestorPath self.arena tip self.chain.chain) (hparent : parent_of self.arena idx = some tip) :
    self.build_chain_path idx = self.chain.chain ++ [idx] :=
  (hindexed.build_chain_path (hindexed.tree.parent_lt hparent).2).2.unique
    (hchain.2.child hindexed.tree.leveled hparent)

theorem find_fork_height_child {tip idx : Nat} (hchain : AncestorPath self.arena tip self.chain.chain) :
    self.find_fork_height (self.chain.chain ++ [idx]) self.chain.height = self.chain.height := by
  have hlength := hchain.2.1
  have hheight : self.chain.height = height_of self.arena tip := by
    unfold Chain.height
    omega
  have hmin : min self.chain.height (((self.chain.chain ++ [idx]).length : Int) - 1) = self.chain.height := by
    rw [List.length_append, List.length_singleton]
    omega
  have hin : height_of self.arena tip < self.chain.chain.length := by omega
  have hsame : self.same_block_at (self.chain.chain ++ [idx]) self.chain.height = true := by
    unfold same_block_at Chain.get_block_index
    rw [hheight, if_neg (by omega), Int.toNat_natCast, List.getElem?_append_left hin,
      List.getElem?_eq_getElem hin]
    simp
  unfold ChainstateManager.find_fork_height
  dsimp only
  rw [hmin, heights_down_cons (by omega), List.find?_cons, hsame]
  rfl

theorem Indexed.height_child (hindexed : self.Indexed) {tip idx : Nat}
    (hchain : AncestorPath self.arena tip self.chain.chain) (hparent : parent_of self.arena idx = some tip) :
    (self.entry idx).height = self.chain.height + 1 := by
  have hlevel := hindexed.tree.leveled.child idx tip hparent
  have hlength := hchain.2.1
  rw [hindexed.tree.height_eq (getElem?_entry (hindexed.tree.parent_lt hparent).2), hlevel]
  unfold Chain.height
  omega

variable (env : Env)

@[simp] theorem mark_failed_chain (idx : Nat) (e : Failure BlockValidationState) :
    (self.mark_failed idx e).chain = self.chain := by
  cases e <;> rfl

@[simp] theorem mark_connected_chain (idx : Nat) : (self.mark_connected idx).chain = self.chain := by
  unfold mark_connected
  dsimp only
  split <;> rfl

theorem mark_failed_keeps (self : ChainstateManager) {idx i : Nat} (hne : idx ≠ i) (e : Failure BlockValidationState) :
    (self.mark_failed idx e).arena[i]? = self.arena[i]? := by
  cases e with
  | invalid state =>
    refine (getElem?_modify_eq self.arena idx i _).trans ?_
    simp [hne]
  | panic why => rfl

theorem mark_connected_keeps (self : ChainstateManager) {idx i : Nat} (hne : idx ≠ i) :
    (self.mark_connected idx).arena[i]? = self.arena[i]? := by
  have hkeep : (self.update_entry idx fun index =>
      { index with status := index.status.raise_validity BlockStatus.VALID_SCRIPTS }).arena[i]? = self.arena[i]? := by
    refine (getElem?_modify_eq self.arena idx i _).trans ?_
    simp [hne]
  unfold mark_connected
  dsimp only
  split
  · exact hkeep
  · exact hkeep

theorem connect_at_chain (block_reader : BlockReader) (h : Int) (idx : Nat) :
    (self.connect_at env block_reader h idx).2.chain = self.chain := by
  unfold connect_at
  split
  · rfl
  · split
    · exact mark_failed_chain ..
    · split
      · rfl
      · exact mark_connected_chain ..

theorem connect_at_keeps (block_reader : BlockReader) (h : Int) {idx i : Nat} (hne : idx ≠ i) :
    (self.connect_at env block_reader h idx).2.arena[i]? = self.arena[i]? := by
  unfold connect_at
  split
  · rfl
  · split
    · next e coins_tip _ => exact mark_failed_keeps { self with coins_tip } hne e
    · next coins_tip _ =>
      split
      · rfl
      · exact mark_connected_keeps { self with coins_tip } hne

end ChainstateManager

end qubitcoin.chainstate
