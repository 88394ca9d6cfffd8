import Qubitcoin.Chainstate.Resolve

/-! The tree that is rebuilt from the records of an index, against that index. -/

open qubitcoin primitives block coins chain chainparams block_index_db qubitcoin.validation
  parentTree

namespace qubitcoin.chainstate

/-- The records by height, as entries without links. -/
def loaded_entries (records : List BlockIndexRecord) : List BlockIndex :=
  (records.mergeSort by_height).map to_index

theorem loaded_entries_sorted (records : List BlockIndexRecord) :
    (loaded_entries records).Pairwise fun left right => left.height ≤ right.height := by
  have htrans : ∀ a b c, by_height a b = true → by_height b c = true → by_height a c = true := by
    intro a b c hab hbc
    unfold by_height at *
    simp only [decide_eq_true_eq] at *
    omega
  have htotal : ∀ a b, (by_height a b || by_height b a) = true := by
    intro a b
    unfold by_height
    simp only [Bool.or_eq_true, decide_eq_true_eq]
    omega
  unfold loaded_entries
  rw [List.pairwise_map]
  exact (List.pairwise_mergeSort htrans htotal records).imp fun hle => of_decide_eq_true hle

theorem loaded_entries_perm {records : List BlockIndexRecord} {arena : List BlockIndex}
    (hrecords : records.Perm (arena.map to_record)) : (loaded_entries records).Perm (arena.map unlinked) := by
  have hperm := ((List.mergeSort_perm records by_height).trans hrecords).map to_index
  rw [List.map_map] at hperm
  have hsame : arena.map (to_index ∘ to_record) = arena.map unlinked :=
    List.map_congr_left fun index _ => to_index_to_record index
  rwa [hsame] at hperm

namespace ChainstateManager

variable {self : ChainstateManager}

theorem Indexed.hashes_nodup (hindexed : self.Indexed) : (self.arena.map BlockIndex.block_hash).Nodup := by
  rw [List.nodup_iff_getElem?_ne_getElem?]
  intro i j hij hj heq
  rw [List.length_map] at hj
  rw [List.getElem?_map, List.getElem?_map, getElem?_entry hj, getElem?_entry (hij.trans hj)] at heq
  have := hindexed.hash_injective (getElem?_entry (hij.trans hj)) (getElem?_entry hj) (Option.some.inj heq)
  omega

theorem loaded_lt_of_height {records : List BlockIndexRecord} {i j : Nat} {index other : BlockIndex}
    (hat : (loaded_entries records)[i]? = some index) (hother : (loaded_entries records)[j]? = some other)
    (hheight : index.height < other.height) : i < j := by
  obtain ⟨hi, rfl⟩ := List.getElem?_eq_some_iff.mp hat
  obtain ⟨hj, rfl⟩ := List.getElem?_eq_some_iff.mp hother
  by_contra hle
  rcases Nat.lt_or_eq_of_le (Nat.le_of_not_lt hle) with hlt | rfl
  · have := List.pairwise_iff_getElem.mp (loaded_entries_sorted records) j i hj hi hlt
    omega
  · omega

section
variable {records : List BlockIndexRecord} (hrecords : records.Perm (self.arena.map to_record))
include hrecords

theorem loaded_origin {idx : Nat} {index : BlockIndex} (hat : (loaded_entries records)[idx]? = some index) :
    ∃ (j : Nat) (old : BlockIndex), self.arena[j]? = some old ∧ index = unlinked old := by
  have hmem := (loaded_entries_perm hrecords).mem_iff.mp (List.mem_of_getElem? hat)
  obtain ⟨old, hold, rfl⟩ := List.mem_map.mp hmem
  obtain ⟨j, hj⟩ := List.mem_iff_getElem?.mp hold
  exact ⟨j, old, hj, rfl⟩

theorem loaded_of_entry {j : Nat} {old : BlockIndex} (hat : self.arena[j]? = some old) :
    ∃ idx : Nat, (loaded_entries records)[idx]? = some (unlinked old) := by
  have hmem : unlinked old ∈ self.arena.map unlinked := List.mem_map_of_mem (List.mem_of_getElem? hat)
  exact List.mem_iff_getElem?.mp ((loaded_entries_perm hrecords).mem_iff.mpr hmem)

variable (hindexed : self.Indexed)
include hindexed

theorem loaded_hashes_nodup : ((loaded_entries records).map BlockIndex.block_hash).Nodup := by
  have hperm := (loaded_entries_perm hrecords).map BlockIndex.block_hash
  rw [List.map_map] at hperm
  exact hperm.nodup_iff.mpr hindexed.hashes_nodup

theorem loaded_hash_injective {i j : Nat} {index other : BlockIndex}
    (hat : (loaded_entries records)[i]? = some index) (hother : (loaded_entries records)[j]? = some other)
    (hhash : index.block_hash = other.block_hash) : i = j := by
  have hi : i < ((loaded_entries records).map BlockIndex.block_hash).length := by
    rw [List.length_map]
    exact (List.getElem?_eq_some_iff.mp hat).1
  refine (List.getElem?_inj hi (loaded_hashes_nodup hrecords hindexed)).mp ?_
  rw [List.getElem?_map, List.getElem?_map, hat, hother]
  exact congrArg some hhash

theorem loadable (hnull : ∀ {idx : Nat} {index : BlockIndex}, self.arena[idx]? = some index → index.block_hash ≠ 0) :
    Loadable (loaded_entries records) := by
  have hzero := getElem?_entry hindexed.nonempty
  obtain ⟨start, hstart⟩ := loaded_of_entry hrecords hzero
  have hgenesis_height : (self.entry 0).height = 0 := (hindexed.tree.root hzero).2
  -- Genesis comes first: no other entry has its height.
  have hfirst : ∀ {index : BlockIndex}, (loaded_entries records)[0]? = some index → index = unlinked (self.entry 0) := by
    intro index hat
    obtain ⟨j, old, hold, rfl⟩ := loaded_origin hrecords hat
    have hnonneg := hindexed.tree.height_nonneg hold
    have hheight : old.height = 0 := by
      by_contra hne
      have hlt : (unlinked (self.entry 0)).height < (unlinked old).height := by
        have : (self.entry 0).height < old.height := by omega
        exact this
      have := loaded_lt_of_height hstart hat hlt
      omega
    have hj := (List.getElem?_eq_some_iff.mp hold).1
    have hlevel := hindexed.tree.height_eq hold
    obtain rfl := hindexed.tree.eq_zero_of_height hj (by omega)
    rw [entry_eq hold]
  refine ⟨loaded_hashes_nodup hrecords hindexed, ?_, ?_, ?_⟩
  · intro idx index hat
    obtain ⟨_, old, _, rfl⟩ := loaded_origin hrecords hat
    exact ⟨rfl, rfl⟩
  · intro index hat
    rw [hfirst hat]
    exact ⟨(hindexed.root hzero).1, hgenesis_height⟩
  · intro idx index hat hne
    obtain ⟨j, old, hold, rfl⟩ := loaded_origin hrecords hat
    have hj : j ≠ 0 := by
      rintro rfl
      rw [hzero] at hold
      cases hold
      have hlt : 0 < (loaded_entries records).length := by
        have := (List.getElem?_eq_some_iff.mp hat).1
        omega
      have hhead := List.getElem?_eq_getElem hlt
      have hsame := hfirst hhead
      exact hne (loaded_hash_injective hrecords hindexed hat hhead (by rw [hsame]))
    obtain ⟨prev_idx, prev, hlink, _, hprev, hheight⟩ := hindexed.tree.child hold hj
    obtain ⟨hhash, _⟩ := hindexed.child hold hlink hprev
    obtain ⟨place, hplace⟩ := loaded_of_entry hrecords hprev
    have hlt : (unlinked prev).height < (unlinked old).height := by
      have : prev.height < old.height := by omega
      exact this
    have hnonzero : (unlinked old).prev_blockhash ≠ 0 := by
      have : old.prev_blockhash ≠ 0 := hhash ▸ hnull hprev
      exact this
    exact ⟨hnonzero, place, unlinked prev, loaded_lt_of_height hplace hat hlt, hplace, hhash.symm,
      hheight⟩

variable (hnull : ∀ {idx : Nat} {index : BlockIndex}, self.arena[idx]? = some index → index.block_hash ≠ 0)
include hnull

theorem load_arena : (BlockMap.new.load records).Finds (loaded_entries records) ∧
    Linked (BlockMap.new.load records).indices ∧
    (BlockMap.new.load records).indices.map unlinked = loaded_entries records := by
  obtain ⟨hfinds, hlinked, hsame⟩ := BlockMap.load_spec rfl (loadable hrecords hindexed hnull)
  refine ⟨hfinds, hlinked, hsame.trans ?_⟩
  rw [List.map_map]
  exact List.map_congr_left fun _ _ => rfl

theorem load_entries :
    (∀ {i : Nat} {index : BlockIndex}, (BlockMap.new.load records).indices[i]? = some index →
      ∃ (j : Nat) (old : BlockIndex), self.arena[j]? = some old ∧ unlinked index = unlinked old) ∧
    ∀ {j : Nat} {old : BlockIndex}, self.arena[j]? = some old →
      ∃ (i : Nat) (index : BlockIndex), (BlockMap.new.load records).indices[i]? = some index ∧
        unlinked index = unlinked old := by
  obtain ⟨_, _, hsame⟩ := load_arena hrecords hindexed hnull
  constructor
  · intro i index hat
    have hmap := congrArg (fun list : List BlockIndex => list[i]?) hsame
    simp only [List.getElem?_map, hat, Option.map_some] at hmap
    obtain ⟨j, old, hold, heq⟩ := loaded_origin hrecords hmap.symm
    exact ⟨j, old, hold, heq⟩
  · intro j old hat
    obtain ⟨i, hi⟩ := loaded_of_entry hrecords hat
    have hmap := congrArg (fun list : List BlockIndex => list[i]?) hsame
    simp only [List.getElem?_map, hi] at hmap
    obtain ⟨index, hindex, heq⟩ := Option.map_eq_some_iff.mp hmap
    exact ⟨i, index, hindex, heq⟩

theorem Indexed.load {manager : ChainstateManager} (hmap : manager.block_index = BlockMap.new.load records) :
    manager.Indexed := by
  obtain ⟨hfinds, hlinked, hsame⟩ := load_arena hrecords hindexed hnull
  obtain ⟨horigin, hloaded⟩ := load_entries hrecords hindexed hnull
  have harena : manager.arena = (BlockMap.new.load records).indices := congrArg BlockMap.indices hmap
  rw [← harena] at hlinked hsame horigin hloaded
  -- Entries with the data of one block, and the entry of its parent.
  have hdata : ∀ {index old : BlockIndex}, unlinked index = unlinked old → index.block_hash = old.block_hash ∧
      index.prev_blockhash = old.prev_blockhash ∧ index.height = old.height ∧ index.chain_work = old.chain_work ∧
      get_block_proof index = get_block_proof old := by
    intro index old heq
    have hhash := congrArg BlockIndex.block_hash heq
    have hprev := congrArg BlockIndex.prev_blockhash heq
    have hheight := congrArg BlockIndex.height heq
    have hwork := congrArg BlockIndex.chain_work heq
    have hproof := congrArg get_block_proof heq
    exact ⟨hhash, hprev, hheight, hwork, hproof⟩
  constructor
  · exact hlinked.tree
  · obtain ⟨i, index, hat, _⟩ := hloaded (getElem?_entry hindexed.nonempty)
    have := (List.getElem?_eq_some_iff.mp hat).1
    omega
  · intro hash idx
    rw [hmap]
    refine (hfinds hash idx).trans ?_
    rw [← hsame]
    constructor
    · rintro ⟨index, hat, rfl⟩
      rw [List.getElem?_map] at hat
      obtain ⟨entry, hentry, rfl⟩ := Option.map_eq_some_iff.mp hat
      exact ⟨entry, hentry, rfl⟩
    · rintro ⟨index, hat, rfl⟩
      exact ⟨unlinked index, by rw [List.getElem?_map, hat]; rfl, rfl⟩
  · intro index hat
    obtain ⟨j, old, hold, heq⟩ := horigin hat
    obtain ⟨_, hprev, hheight, _⟩ := hdata heq
    refine ⟨?_, hlinked.root hat⟩
    have hroot := (hlinked.tree.root hat).2
    have hj := (List.getElem?_eq_some_iff.mp hold).1
    have hlevel := hindexed.tree.height_eq hold
    obtain rfl := hindexed.tree.eq_zero_of_height hj (by omega)
    rw [hprev]
    exact (hindexed.root hold).1
  · intro idx prev_idx index prev hat hlink hprev_at
    obtain ⟨hparent, htime⟩ := hlinked.child hat hlink hprev_at
    refine ⟨hparent, htime, ?_⟩
    obtain ⟨j, old, hold, heq⟩ := horigin hat
    obtain ⟨i, old_prev, hold_prev, heq_prev⟩ := horigin hprev_at
    obtain ⟨_, hprev, hheight, hwork, hproof⟩ := hdata heq
    obtain ⟨hprev_hash, _, _, hprev_work, _⟩ := hdata heq_prev
    have hj : j ≠ 0 := by
      rintro rfl
      have hroot := (hindexed.tree.root hold).2
      have hlevel := hlinked.tree.leveled.child idx prev_idx
        (by rw [parent_of, getD_of_getElem? hat, hlink])
      have := hlinked.tree.height_eq hat
      omega
    obtain ⟨k, parent, hold_link, _, hparent_at, _⟩ := hindexed.tree.child hold hj
    obtain ⟨hold_hash, _, hold_work⟩ := hindexed.child hold hold_link hparent_at
    have hsame_parent : i = k := by
      apply hindexed.hash_injective hold_prev hparent_at
      rw [← hprev_hash, ← hparent, hprev, hold_hash]
    subst hsame_parent
    rw [hold_prev] at hparent_at
    cases hparent_at
    rw [hwork, hold_work, hprev_work, hproof]
  · intro idx index hat
    obtain ⟨j, old, hold, heq⟩ := horigin hat
    rw [(hdata heq).2.2.1]
    exact hindexed.height_lt hold

theorem Sound.load_block_index (hsound : self.Sound) (hwork : (self.entry 0).chain_work ≠ 0) (params : ChainParams)
    (base : CoinsViewDB) :
    ∃ loaded tip, (ChainstateManager.new params base).load_block_index records = loaded ∧ loaded.Sound ∧
      loaded.block_index = BlockMap.new.load records ∧ loaded.coins_tip = .new base ∧
      AncestorPath loaded.arena tip loaded.chain.chain ∧
      loaded.best_valid_tip = some (tip, (loaded.entry tip).chain_work) ∧
      (loaded.entry tip).is_valid BlockStatus.VALID_SCRIPTS = true ∧
      ∀ idx < loaded.arena.length, (loaded.entry idx).is_valid BlockStatus.VALID_SCRIPTS = true →
        (loaded.entry idx).chain_work ≤ (loaded.entry tip).chain_work := by
  obtain ⟨horigin, hloaded⟩ := load_entries hrecords hindexed hnull
  have hnonempty : records ≠ [] := by
    rintro rfl
    have hlength := hrecords.length_eq
    rw [List.length_map] at hlength
    have := hindexed.nonempty
    simp only [List.length_nil] at hlength
    omega
  have hdata : ∀ {index old : BlockIndex}, unlinked index = unlinked old → index.status = old.status ∧
      index.chain_work = old.chain_work := by
    intro index old heq
    have hstatus := congrArg BlockIndex.status heq
    have hwork := congrArg BlockIndex.chain_work heq
    exact ⟨hstatus, hwork⟩
  have hgenesis_data : ∀ {index : BlockIndex}, unlinked index = unlinked (self.entry 0) →
      index.is_valid BlockStatus.VALID_SCRIPTS = true ∧ index.chain_work ≠ 0 := by
    intro index heq
    obtain ⟨hstatus, hsame_work⟩ := hdata heq
    unfold BlockIndex.is_valid
    rw [hstatus, hsame_work]
    exact ⟨hsound.genesis, hwork⟩
  -- Genesis is fully valid and has some work, so there is a best entry.
  obtain ⟨⟨hmax, hbest⟩, hnone⟩ := (BlockMap.new.load records).find_best_spec
  cases hfind : (BlockMap.new.load records).find_best with
  | mk best best_work =>
    rw [hfind] at hmax hbest hnone
    cases best with
    | none =>
      obtain ⟨i, genesis, hat, hgenesis⟩ := hloaded (getElem?_entry hindexed.nonempty)
      obtain ⟨hvalid, hnonzero⟩ := hgenesis_data hgenesis
      have hget : (BlockMap.new.load records).get i = genesis := getD_of_getElem? hat
      have hle := hmax i (List.getElem?_eq_some_iff.mp hat).1 (by rw [hget]; exact hvalid)
      rw [hget, hnone rfl] at hle
      exact absurd (BitVec.le_zero_iff.mp hle) hnonzero
    | some tip =>
      obtain ⟨hlt, hvalid, hbest_work⟩ := hbest tip rfl
      set before : ChainstateManager := { ChainstateManager.new params base with
        block_index := BlockMap.new.load records
        best_valid_tip := some (tip, best_work) } with hbefore
      have hafter : before.Indexed := Indexed.load hrecords hindexed hnull rfl
      have hheight : (before.entry tip).height = height_of before.arena tip :=
        hafter.tree.height_eq (getElem?_entry hlt)
      have hpath : AncestorPath before.arena tip
          (before.chain.set_tip_with tip (before.entry tip).height before.get_prev).chain := by
        rw [hheight]
        exact hafter.tree.set_tip_with_path hlt (hafter.tree.settled_resize_nil _)
      refine ⟨{ before with chain := before.chain.set_tip_with tip (before.entry tip).height before.get_prev }, tip,
        ?_, ⟨⟨hafter.tree, hafter.nonempty, hafter.by_hash, hafter.root, hafter.child, hafter.height_lt⟩,
          ⟨tip, hpath⟩, ?_, ?_, ?_⟩, rfl, rfl, hpath, congrArg (fun work => some (tip, work)) hbest_work, hvalid, ?_⟩
      · unfold ChainstateManager.load_block_index
        rw [if_neg hnonempty]
        have hempty : (ChainstateManager.new params base).block_index = BlockMap.new := rfl
        rw [hempty]
        dsimp only
        rw [hfind]
      · intro idx work hidx
        cases hidx
        exact ⟨hlt, hbest_work⟩
      · obtain ⟨j, old, hold, heq⟩ := horigin (getElem?_entry hafter.nonempty)
        have hroot := (hafter.tree.root (getElem?_entry hafter.nonempty)).2
        have hj := (List.getElem?_eq_some_iff.mp hold).1
        have hlevel := hindexed.tree.height_eq hold
        have hsame := (unlinked_hash heq).2
        obtain rfl := hindexed.tree.eq_zero_of_height hj (by omega)
        rw [← entry_eq hold] at heq
        exact (hgenesis_data heq).1
      · intro idx index hat
        obtain ⟨j, old, hold, heq⟩ := horigin hat
        rw [(hdata heq).1]
        exact hsound.flags hold
      · intro idx hidx hidx_valid
        have hle := hmax idx hidx hidx_valid
        rw [hbest_work] at hle
        exact hle

end

/-- Indices of one block: the entries have one hash, name one parent and are at one height. -/
def Matched (self other : ChainstateManager) (i j : Nat) : Prop :=
  ∃ index twin, self.arena[i]? = some index ∧ other.arena[j]? = some twin ∧ index.block_hash = twin.block_hash ∧
    index.prev_blockhash = twin.prev_blockhash ∧ index.height = twin.height

/-- Indices of one block: the entries differ in their links at most. -/
def Twin (self other : ChainstateManager) (i j : Nat) : Prop :=
  ∃ index twin, self.arena[i]? = some index ∧ other.arena[j]? = some twin ∧ unlinked index = unlinked twin

theorem Twin.matched {other : ChainstateManager} {i j : Nat} (htwin : Twin self other i j) : Matched self other i j := by
  obtain ⟨index, twin, hat, htwin_at, hsame⟩ := htwin
  have hprev := congrArg BlockIndex.prev_blockhash hsame
  exact ⟨index, twin, hat, htwin_at, (unlinked_hash hsame).1, hprev, (unlinked_hash hsame).2⟩

theorem Matched.block_hash {other : ChainstateManager} {i j : Nat} (hmatched : Matched self other i j) :
    (self.entry i).block_hash = (other.entry j).block_hash := by
  obtain ⟨index, twin, hat, htwin_at, hhash, _, _⟩ := hmatched
  rw [entry_eq hat, entry_eq htwin_at, hhash]

theorem Matched.height {other : ChainstateManager} {i j : Nat} (hmatched : Matched self other i j) :
    height_of self.arena i = height_of other.arena j := by
  obtain ⟨index, twin, hat, htwin_at, _, _, hheight⟩ := hmatched
  rw [height_of, height_of, getD_of_getElem? hat, getD_of_getElem? htwin_at, hheight]

theorem Twin.height {other : ChainstateManager} {i j : Nat} (htwin : Twin self other i j) :
    height_of self.arena i = height_of other.arena j := htwin.matched.height

theorem Twin.block_hash {other : ChainstateManager} {i j : Nat} (htwin : Twin self other i j) :
    (self.entry i).block_hash = (other.entry j).block_hash := htwin.matched.block_hash

theorem Matched.parent {other : ChainstateManager} (hself : self.Indexed) (hother : other.Indexed) {r : Nat → Nat → Prop}
    (hcover : ∀ {i : Nat}, i < self.arena.length → ∃ j, r i j) (hmatched : ∀ {i j : Nat}, r i j → Matched self other i j)
    {i j : Nat} (hij : Matched self other i j) : Option.Rel r (parent_of self.arena i) (parent_of other.arena j) := by
  have hheight := hij.height
  obtain ⟨index, twin, hat, htwin_at, _, hprev_same, _⟩ := hij
  have hi := (List.getElem?_eq_some_iff.mp hat).1
  have hj := (List.getElem?_eq_some_iff.mp htwin_at).1
  rw [parent_of, parent_of, getD_of_getElem? hat, getD_of_getElem? htwin_at]
  by_cases hroot : i = 0
  · subst hroot
    rw [hself.tree.height_zero] at hheight
    obtain rfl := hother.tree.eq_zero_of_height hj hheight.symm
    rw [(hself.tree.root hat).1, (hother.tree.root htwin_at).1]
    exact .none
  · have hroot_twin : j ≠ 0 := by
      rintro rfl
      rw [hother.tree.height_zero] at hheight
      exact hroot (hself.tree.eq_zero_of_height hi hheight)
    obtain ⟨p, prev, hlink, _, hprev, _⟩ := hself.tree.child hat hroot
    obtain ⟨q, twin_prev, htwin_link, _, htwin_prev, _⟩ := hother.tree.child htwin_at hroot_twin
    have hhash := (hself.child hat hlink hprev).1
    have htwin_hash := (hother.child htwin_at htwin_link htwin_prev).1
    obtain ⟨k, hk⟩ := hcover (List.getElem?_eq_some_iff.mp hprev).1
    have hk_hash := (hmatched hk).block_hash
    obtain ⟨_, found, _, hfound, _⟩ := hmatched hk
    rw [entry_eq hprev, entry_eq hfound] at hk_hash
    have hsame_parent : k = q := by
      apply hother.hash_injective hfound htwin_prev
      rw [← hk_hash, ← hhash, hprev_same, htwin_hash]
    rw [hlink, htwin_link]
    exact .some (hsame_parent ▸ hk)

section
variable {other : ChainstateManager} (hself : self.Indexed) (hother : other.Indexed)
  (hcover : ∀ {i : Nat}, i < self.arena.length → ∃ j, Twin self other i j)
include hself hother hcover

theorem Twin.parent {i j : Nat} (htwin : Twin self other i j) :
    Option.Rel (Twin self other) (parent_of self.arena i) (parent_of other.arena j) :=
  Matched.parent hself hother hcover Twin.matched htwin.matched

theorem Twin.get_ancestor {i j : Nat} (htwin : Twin self other i j) (height : Int) :
    (chain.get_ancestor self.arena i height).map (fun idx => (self.entry idx).block_hash) =
      (chain.get_ancestor other.arena j height).map fun idx => (other.entry idx).block_hash := by
  have hheight := htwin.height
  have hancestor : ∀ n, Option.Rel (Twin self other) (ancestor (parent_of self.arena) n i)
      (ancestor (parent_of other.arena) n j) :=
    fun n => ancestor_rel (fun htwin => htwin.parent hself hother hcover) htwin
  obtain ⟨_, _, hat, htwin_at, _⟩ := htwin
  have hi := (List.getElem?_eq_some_iff.mp hat).1
  have hj := (List.getElem?_eq_some_iff.mp htwin_at).1
  rw [hself.tree.get_ancestor_eq hi, hother.tree.get_ancestor_eq hj, hheight]
  split
  · have hrel := hancestor (height_of other.arena j - height.toNat)
    generalize ancestor (parent_of self.arena) _ i = left at hrel ⊢
    generalize ancestor (parent_of other.arena) _ j = right at hrel ⊢
    cases hrel with
    | some hrel => exact congrArg some hrel.block_hash
    | none => rfl
  · rfl

theorem Twin.collect_ancestors {count : Nat} : ∀ {left right : Option Nat},
    Option.Rel (Twin self other) left right →
    (collect_ancestors_from self.arena count left).map BlockIndex.get_block_time =
      (collect_ancestors_from other.arena count right).map BlockIndex.get_block_time := by
  induction count with
  | zero => exact fun _ => rfl
  | succ count ih =>
    intro left right hrel
    cases hrel with
    | none => rfl
    | @some i j htwin =>
      have hparent := htwin.parent hself hother hcover
      obtain ⟨index, twin, hat, htwin_at, hsame⟩ := htwin
      have htime : index.time = twin.time := by
        have := congrArg BlockIndex.time hsame
        exact this
      rw [parent_of, parent_of, getD_of_getElem? hat, getD_of_getElem? htwin_at] at hparent
      unfold collect_ancestors_from
      rw [hat, htwin_at]
      dsimp only
      rw [List.map_cons, List.map_cons, ih hparent, BlockIndex.get_block_time, BlockIndex.get_block_time, htime]

theorem Twin.compute_mtp {i j : Nat} (htwin : Twin self other i j) :
    chain.compute_mtp self.arena i = chain.compute_mtp other.arena j := by
  have hcollect : (collect_ancestors_from self.arena MEDIAN_TIME_SPAN (some i)).map BlockIndex.get_block_time =
      (collect_ancestors_from other.arena MEDIAN_TIME_SPAN (some j)).map BlockIndex.get_block_time :=
    Twin.collect_ancestors hself hother hcover (.some htwin)
  unfold chain.compute_mtp collect_mtp_ancestors BlockIndex.get_median_time_past
  rw [List.map_take, List.map_take, hcollect]

theorem Twin.time_max {i : Nat} : ∀ {j : Nat}, Twin self other i j →
    (self.entry i).time_max = (other.entry j).time_max := by
  induction i using Nat.strongRecOn with
  | _ i ih =>
    intro j htwin
    have hparent := htwin.parent hself hother hcover
    obtain ⟨index, twin, hat, htwin_at, hsame⟩ := htwin
    have htime : index.time = twin.time := by
      have := congrArg BlockIndex.time hsame
      exact this
    rw [entry_eq hat, entry_eq htwin_at]
    rw [parent_of, parent_of, getD_of_getElem? hat, getD_of_getElem? htwin_at] at hparent
    by_cases hroot : i = 0
    · subst hroot
      rw [(hself.tree.root hat).1] at hparent
      have hroot_twin : j = 0 := by
        by_contra hne
        obtain ⟨_, _, htwin_link, _⟩ := hother.tree.child htwin_at hne
        rw [htwin_link] at hparent
        cases hparent
      subst hroot_twin
      rw [(hself.root hat).2, (hother.root htwin_at).2, htime]
    · obtain ⟨p, prev, hlink, hlt, hprev, _⟩ := hself.tree.child hat hroot
      rw [hlink] at hparent
      cases htwin_link : twin.prev with
      | none =>
        rw [htwin_link] at hparent
        cases hparent
      | some q =>
        rw [htwin_link] at hparent
        cases hparent with
        | some hrel =>
          have hmax := ih p hlt hrel
          obtain ⟨_, twin_prev, _, htwin_prev, _⟩ := hrel
          rw [entry_eq hprev, entry_eq htwin_prev] at hmax
          rw [(hself.child hat hlink hprev).2.1, (hother.child htwin_at htwin_link htwin_prev).2.1, hmax, htime]

end

end ChainstateManager

end qubitcoin.chainstate
