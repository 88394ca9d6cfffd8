import Qubitcoin.Chainstate.Sound

/-! The links of a loaded arena: going through the entries by height, each one finds
    its parent among the entries before it. -/

open qubitcoin primitives block coins chain chainparams block_index_db qubitcoin.validation
  parentTree

namespace qubitcoin.chainstate

theorem modify_append_cons (done rest : List BlockIndex) (index : BlockIndex) (update : BlockIndex → BlockIndex) :
    (done ++ index :: rest).modify done.length update = done ++ update index :: rest := by
  induction done with
  | nil => rfl
  | cons first done ih => exact congrArg (first :: ·) ih

theorem BlockMap.get_mut_append_cons {map : BlockMap} {done rest : List BlockIndex} {index : BlockIndex}
    (hindices : map.indices = done ++ index :: rest) (update : BlockIndex → BlockIndex) :
    (map.get_mut done.length update).indices = done ++ update index :: rest := by
  unfold BlockMap.get_mut
  dsimp only
  rw [hindices]
  exact modify_append_cons done rest index update

theorem getD_append_cons (done rest : List BlockIndex) (index : BlockIndex) :
    (done ++ index :: rest).getD done.length .new = index := by
  rw [List.getD_eq_getElem?_getD, List.getElem?_append_right le_rfl, Nat.sub_self]
  rfl

/-- Entries that can be linked: distinct hashes, the root first, and every other
    entry after its parent. -/
structure Loadable (entries : List BlockIndex) : Prop where
  hashes : (entries.map BlockIndex.block_hash).Nodup
  links : ∀ {idx : Nat} {index : BlockIndex}, entries[idx]? = some index → index.prev = none ∧ index.skip = none
  root : ∀ {index : BlockIndex}, entries[0]? = some index → index.prev_blockhash = 0 ∧ index.height = 0
  child : ∀ {idx : Nat} {index : BlockIndex}, entries[idx]? = some index → idx ≠ 0 →
    index.prev_blockhash ≠ 0 ∧ ∃ prev_idx prev, prev_idx < idx ∧ entries[prev_idx]? = some prev ∧
      prev.block_hash = index.prev_blockhash ∧ index.height = prev.height + 1

/-- The part of the arena that is linked: a tree whose entries have the data that
    follows from their parents. -/
structure Linked (arena : List BlockIndex) : Prop where
  tree : Tree arena
  root : ∀ {index : BlockIndex}, arena[0]? = some index → index.time_max = index.time
  child : ∀ {idx prev_idx : Nat} {index prev : BlockIndex}, arena[idx]? = some index → index.prev = some prev_idx →
    arena[prev_idx]? = some prev →
    index.prev_blockhash = prev.block_hash ∧ index.time_max = max prev.time_max index.time

theorem Linked.set_skip {arena : List BlockIndex} {index : BlockIndex} (hlinked : Linked (arena ++ [index]))
    (skip : Option Nat) (htree : chain.Tree (arena ++ [{ index with skip }])) :
    Linked (arena ++ [{ index with skip }]) := by
  have hold : ∀ {idx : Nat} {other : BlockIndex}, (arena ++ [{ index with skip }])[idx]? = some other →
      ∃ before, (arena ++ [index])[idx]? = some before ∧ other.time_max = before.time_max ∧
        other.time = before.time ∧ other.prev = before.prev ∧ other.prev_blockhash = before.prev_blockhash ∧
        other.block_hash = before.block_hash := by
    intro idx other hat
    obtain hat | ⟨rfl, rfl⟩ := getElem?_concat_cases hat
    · have hlt := (List.getElem?_eq_some_iff.mp hat).1
      exact ⟨other, by rw [List.getElem?_append_left hlt, hat], rfl, rfl, rfl, rfl, rfl⟩
    · exact ⟨index, by simp, rfl, rfl, rfl, rfl, rfl⟩
  refine ⟨htree, ?_, ?_⟩
  · intro other hat
    obtain ⟨before, hbefore, hmax, htime, _⟩ := hold hat
    rw [hmax, htime]
    exact hlinked.root hbefore
  · intro idx prev_idx other prev hat hlink hprev
    obtain ⟨before, hbefore, hmax, htime, hother, hhash, _⟩ := hold hat
    obtain ⟨parent, hparent, hparent_max, _, _, _, hparent_hash⟩ := hold hprev
    rw [hmax, htime, hhash, hparent_max, hparent_hash]
    rw [hother] at hlink
    exact hlinked.child hbefore hlink hparent

theorem Linked.push {arena : List BlockIndex} (hlinked : Linked arena) {prev_idx : Nat} {prev index : BlockIndex}
    (hprev : arena[prev_idx]? = some prev) (hlink : index.prev = some prev_idx) (hskip : index.skip = none)
    (hheight : index.height = prev.height + 1) (hhash : index.prev_blockhash = prev.block_hash)
    (htime : index.time_max = max prev.time_max index.time) : Linked (arena ++ [index]) := by
  have hlt := (List.getElem?_eq_some_iff.mp hprev).1
  refine ⟨hlinked.tree.push hprev hlink hheight hskip, ?_, ?_⟩
  · intro other hat
    obtain hat | ⟨hidx, _⟩ := getElem?_concat_cases hat
    · exact hlinked.root hat
    · omega
  · intro idx other_idx other parent hat hother hparent
    obtain hat | ⟨rfl, rfl⟩ := getElem?_concat_cases hat
    · have hearlier := (hlinked.tree.parent_lt (by rw [parent_of, getD_of_getElem? hat, hother])).1
      have hidx := (List.getElem?_eq_some_iff.mp hat).1
      obtain hparent | ⟨heq, _⟩ := getElem?_concat_cases hparent
      · exact hlinked.child hat hother hparent
      · omega
    · rw [hlink] at hother
      cases hother
      rw [List.getElem?_append_left hlt, hprev] at hparent
      cases hparent
      exact ⟨hhash, htime⟩

/-- The ancestor that a skip pointer is set to. -/
def BlockMap.skip_target (self : BlockMap) (arena_idx : Nat) : Option Nat :=
  if (self.get arena_idx).height < 1 then none
  else (self.get arena_idx).prev.bind fun prev_idx =>
    get_ancestor self.indices prev_idx (get_skip_height (self.get arena_idx).height)

theorem BlockMap.build_skip_pointer_eq (self : BlockMap) (arena_idx : Nat) :
    self.build_skip_pointer arena_idx = match self.skip_target arena_idx with
      | none => self
      | some skip_idx => self.get_mut arena_idx fun index => { index with skip := some skip_idx } := by
  unfold BlockMap.build_skip_pointer BlockMap.skip_target
  dsimp only
  split
  · rfl
  · cases (self.get arena_idx).prev with
    | none => rfl
    | some prev_idx => rfl

theorem BlockMap.build_skip_pointer_append {self : BlockMap} {arena rest : List BlockIndex} {index : BlockIndex}
    (hindices : self.indices = arena ++ index :: rest) (htree : chain.Tree (arena ++ [index])) :
    ∃ skip, (self.build_skip_pointer arena.length).indices = arena ++ { index with skip } :: rest ∧
      (self.build_skip_pointer arena.length).by_hash = self.by_hash ∧
      chain.Tree (arena ++ [{ index with skip }]) := by
  set small : BlockMap := ⟨arena ++ [index], self.by_hash⟩ with hsmall
  have hlast : arena.length < small.indices.length := by simp [hsmall]
  have hget : self.get arena.length = index := by
    unfold BlockMap.get
    rw [hindices]
    exact getD_append_cons arena rest index
  have hget_small : small.get arena.length = index := getD_append_cons arena [] index
  have htarget : self.skip_target arena.length = small.skip_target arena.length := by
    unfold BlockMap.skip_target
    rw [hget, hget_small]
    split
    · rfl
    · cases hprev : index.prev with
      | none => rfl
      | some prev_idx =>
        have hparent : parent_of small.indices arena.length = some prev_idx :=
          (congrArg BlockIndex.prev hget_small).trans hprev
        have hfull : self.indices = small.indices ++ rest := by
          rw [hindices, hsmall]
          simp
        rw [hfull]
        exact htree.get_ancestor_append rest ((htree.parent_lt hparent).1.trans hlast) _
  have hskip_tree : chain.Tree (small.build_skip_pointer arena.length).indices :=
    BlockMap.build_skip_pointer_tree htree hlast
  rw [BlockMap.build_skip_pointer_eq] at hskip_tree ⊢
  rw [htarget]
  cases htaken : small.skip_target arena.length with
  | none => exact ⟨index.skip, hindices, rfl, htree⟩
  | some skip_idx =>
    rw [htaken] at hskip_tree
    refine ⟨some skip_idx, ?_, rfl, ?_⟩
    · exact BlockMap.get_mut_append_cons hindices _
    · have hmodify := modify_append_cons arena [] index fun index => { index with skip := some skip_idx }
      rw [← hmodify]
      exact hskip_tree

/-- The first entries are linked, the others are as they were inserted. -/
def Resolved (entries : List BlockIndex) (k : Nat) (map : BlockMap) : Prop :=
  map.Finds entries ∧ ∃ done, map.indices = done ++ entries.drop k ∧
    done.map unlinked = (entries.take k).map unlinked ∧ Linked done

theorem unlinked_hash {index other : BlockIndex} (hsame : unlinked index = unlinked other) :
    index.block_hash = other.block_hash ∧ index.height = other.height := by
  have hhash := congrArg BlockIndex.block_hash hsame
  have hheight := congrArg BlockIndex.height hsame
  exact ⟨hhash, hheight⟩

theorem Resolved.link {entries : List BlockIndex} {map linked : BlockMap} {done : List BlockIndex}
    {index after : BlockIndex} {rest : List BlockIndex} (hfinds : map.Finds entries)
    (hindices : linked.indices = done ++ after :: rest) (hby_hash : linked.by_hash = map.by_hash)
    {k : Nat} (hat : entries[k]? = some index) (hsame : unlinked after = unlinked index)
    (hlinked : Linked (done ++ [after])) (hdone : done.map unlinked = (entries.take k).map unlinked)
    (hdrop : entries.drop (k + 1) = rest) :
    Resolved entries (k + 1) (linked.build_skip_pointer done.length) := by
  obtain ⟨skip, hskip_indices, hskip_hash, htree⟩ := BlockMap.build_skip_pointer_append hindices hlinked.tree
  refine ⟨?_, done ++ [{ after with skip }], ?_, ?_, hlinked.set_skip skip htree⟩
  · intro hash idx
    unfold BlockMap.find_by_hash
    rw [hskip_hash, hby_hash]
    exact hfinds hash idx
  · rw [hskip_indices, hdrop]
    simp
  · have hentry : unlinked { after with skip } = unlinked index := hsame
    rw [List.map_append, hdone, List.map_singleton, hentry, List.take_add_one, hat]
    simp

theorem Resolved.step {entries : List BlockIndex} (hload : Loadable entries) {k : Nat} {map : BlockMap}
    (hresolved : Resolved entries k map) (hlt : k < entries.length) : Resolved entries (k + 1) (map.resolve k) := by
  obtain ⟨hfinds, done, hindices, hdone, hlinked⟩ := hresolved
  have hat : entries[k]? = some entries[k] := List.getElem?_eq_getElem hlt
  set index := entries[k] with hindex
  have hlength : done.length = k := by
    have := congrArg List.length hdone
    simp only [List.length_map, List.length_take] at this
    omega
  rw [List.drop_eq_getElem_cons hlt, ← hindex] at hindices
  have hget : map.get k = index := by
    unfold BlockMap.get
    rw [hindices, ← hlength]
    exact getD_append_cons done _ index
  obtain ⟨hprev_none, hskip_none⟩ := hload.links hat
  unfold BlockMap.resolve
  dsimp only
  rw [hget]
  by_cases hroot : k = 0
  · obtain ⟨hnull, hheight⟩ := hload.root (hroot ▸ hat)
    have hnil : done = [] := List.eq_nil_of_length_eq_zero (hlength.trans hroot)
    have hisnull : (!Uint256.is_null index.prev_blockhash) = false := by
      rw [hnull]
      rfl
    rw [hisnull, if_neg (by simp)]
    subst hnil
    obtain rfl : k = 0 := hroot
    have hset := BlockMap.get_mut_append_cons hindices fun other => { other with time_max := index.time }
    have hlinked : Linked ([] ++ [{ index with time_max := index.time }]) := by
      have honly : ∀ {idx : Nat} {other : BlockIndex}, ([] ++ [{ index with time_max := index.time }])[idx]? =
          some other → idx = 0 ∧ other = { index with time_max := index.time } := by
        intro idx other hother
        obtain hother | hlast := getElem?_concat_cases hother
        · cases hother
        · exact hlast
      refine ⟨⟨?_, ?_, ?_⟩, ?_, ?_⟩
      · intro other hother
        obtain ⟨_, rfl⟩ := honly hother
        exact ⟨hprev_none, hheight⟩
      · intro idx other hother hne
        exact absurd (honly hother).1 hne
      · intro idx other skip_idx hother hskip
        obtain ⟨_, rfl⟩ := honly hother
        cases hskip_none.symm.trans hskip
      · intro other hother
        obtain ⟨_, rfl⟩ := honly hother
        rfl
      · intro idx prev_idx other prev hother hlink _
        obtain ⟨_, rfl⟩ := honly hother
        cases hprev_none.symm.trans hlink
    exact Resolved.link hfinds hset rfl hat rfl hlinked hdone rfl
  · obtain ⟨hnull, prev_idx, prev, hprev_lt, hprev_at, hprev_hash, hheight⟩ := hload.child hat hroot
    have hisnull : (!Uint256.is_null index.prev_blockhash) = true := by
      simpa [Uint256.is_null] using hnull
    have hfound : map.find_by_hash index.prev_blockhash = some prev_idx :=
      (hfinds _ _).mpr ⟨prev, hprev_at, hprev_hash⟩
    -- The parent is among the linked entries.
    obtain ⟨parent, hparent_at, hparent_same⟩ : ∃ parent, done[prev_idx]? = some parent ∧
        unlinked parent = unlinked prev := by
      have hmap := congrArg (fun list : List BlockIndex => list[prev_idx]?) hdone
      simp only [List.getElem?_map, List.getElem?_take_of_lt hprev_lt, hprev_at] at hmap
      exact Option.map_eq_some_iff.mp hmap
    obtain ⟨hparent_hash, hparent_height⟩ := unlinked_hash hparent_same
    subst hlength
    have hlink := BlockMap.get_mut_append_cons hindices fun other => { other with prev := some prev_idx }
    have htime := BlockMap.get_mut_append_cons hlink
      fun other => { other with time_max := max parent.time_max index.time }
    have hget_parent : (map.get_mut done.length fun other => { other with prev := some prev_idx }).get prev_idx =
        parent := by
      unfold BlockMap.get
      rw [hlink]
      apply getD_of_getElem?
      rw [List.getElem?_append_left hprev_lt, hparent_at]
    have hget_self : (map.get_mut done.length fun other => { other with prev := some prev_idx }).get done.length =
        { index with prev := some prev_idx } := by
      unfold BlockMap.get
      rw [hlink]
      exact getD_append_cons done _ _
    rw [hisnull, if_pos rfl, hfound]
    dsimp only
    rw [hget_parent, hget_self]
    refine Resolved.link hfinds htime rfl hat rfl ?_ hdone rfl
    refine hlinked.push hparent_at rfl hskip_none ?_ ?_ rfl
    · rw [hparent_height]
      exact hheight
    · rw [hparent_hash, hprev_hash]

theorem Resolved.loop {entries : List BlockIndex} (hload : Loadable entries) {map : BlockMap}
    (hstart : Resolved entries 0 map) {k : Nat} (hle : k ≤ entries.length) :
    Resolved entries k ((List.range k).foldl BlockMap.resolve map) := by
  induction k with
  | zero => exact hstart
  | succ k ih =>
    rw [List.range_succ, List.foldl_append]
    exact (ih (by omega)).step hload (by omega)

theorem BlockMap.load_spec {records : List BlockIndexRecord} {entries : List BlockIndex}
    (hsorted : (records.mergeSort by_height).map to_index = entries)
    (hload : Loadable entries) :
    (BlockMap.new.load records).Finds entries ∧ Linked (BlockMap.new.load records).indices ∧
      (BlockMap.new.load records).indices.map unlinked = entries.map unlinked := by
  have hnew : BlockMap.new.Finds BlockMap.new.indices := by
    intro hash idx
    simp [BlockMap.new, BlockMap.find_by_hash]
  have hnodup : ((BlockMap.new.indices ++ entries).map BlockIndex.block_hash).Nodup := hload.hashes
  obtain ⟨hindices, hfinds⟩ := BlockMap.insert_all_spec hnew hnodup
  have hinsert : (records.mergeSort by_height).foldl (fun map record => map.insert (to_index record)) BlockMap.new =
      entries.foldl BlockMap.insert BlockMap.new := by
    rw [← hsorted, List.foldl_map]
  have hindices : (entries.foldl BlockMap.insert BlockMap.new).indices = entries := hindices
  have hempty : Linked [] := ⟨⟨by simp, by simp, by simp⟩, by simp, by simp⟩
  have hstart : Resolved entries 0 (entries.foldl BlockMap.insert BlockMap.new) :=
    ⟨hfinds, [], hindices, rfl, hempty⟩
  obtain ⟨hfinds_after, done, hdone, hsame, hlinked⟩ := Resolved.loop hload hstart le_rfl
  rw [List.drop_length, List.append_nil] at hdone
  rw [List.take_length] at hsame
  unfold BlockMap.load
  dsimp only
  rw [hinsert, hindices, hdone]
  exact ⟨hfinds_after, hlinked, hsame⟩

/-- No entry before an index is valid and has more work than the best one. -/
def BestOf (map : BlockMap) (k : Nat) (best : Option Nat × ArithUint256) : Prop :=
  (∀ i < k, (map.get i).is_valid BlockStatus.VALID_SCRIPTS = true → (map.get i).chain_work ≤ best.2) ∧
  ∀ idx, best.1 = some idx → idx < k ∧ (map.get idx).is_valid BlockStatus.VALID_SCRIPTS = true ∧
    best.2 = (map.get idx).chain_work

theorem BlockMap.find_best_spec (self : BlockMap) :
    BestOf self self.indices.length self.find_best ∧ (self.find_best.1 = none → self.find_best.2 = 0) := by
  unfold BlockMap.find_best
  induction self.indices.length with
  | zero => exact ⟨⟨nofun, nofun⟩, fun _ => rfl⟩
  | succ k ih =>
    rw [List.range_succ, List.foldl_append, List.foldl_cons, List.foldl_nil]
    generalize (List.range k).foldl _ ((none, 0) : Option Nat × ArithUint256) = best at ih ⊢
    obtain ⟨⟨hmax, hbest⟩, hnone⟩ := ih
    dsimp only
    split
    · next htaken =>
      obtain ⟨hvalid, hmore⟩ := htaken
      refine ⟨⟨fun i hi hi_valid => ?_, fun idx heq => ?_⟩, nofun⟩
      · by_cases hlast : i = k
        · rw [hlast]
          exact BitVec.le_refl _
        · exact BitVec.le_trans (hmax i (by omega) hi_valid) (BitVec.le_of_lt hmore)
      · cases heq
        exact ⟨by omega, hvalid, rfl⟩
    · next hleft =>
      refine ⟨⟨fun i hi hi_valid => ?_, fun idx heq => ?_⟩, hnone⟩
      · by_cases hlast : i = k
        · rw [hlast] at hi_valid ⊢
          exact BitVec.not_lt.mp fun hmore => hleft ⟨hi_valid, hmore⟩
        · exact hmax i (by omega) hi_valid
      · obtain ⟨hlt, hvalid, hwork⟩ := hbest idx heq
        exact ⟨by omega, hvalid, hwork⟩

end qubitcoin.chainstate
