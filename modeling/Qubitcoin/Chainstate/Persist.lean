import Qubitcoin.Chainstate.Reload
import Qubitcoin.Chainstate.Marked

/-! The database of the block index along a run: every entry that is not dirty is
    stored as it is. -/

open qubitcoin primitives block coins chain chainparams block_index_db qubitcoin.validation
  parentTree transition

namespace qubitcoin.chainstate

namespace ChainstateManager

/-- Entries keep their hash and their work, and what changes is dirty. -/
structure Tracked (before after : ChainstateManager) : Prop where
  keep : ∀ {idx : Nat} {index : BlockIndex}, before.arena[idx]? = some index →
    ∃ new, after.arena[idx]? = some new ∧ new.block_hash = index.block_hash ∧ new.chain_work = index.chain_work
  dirty : before.dirty_indices ⊆ after.dirty_indices
  clean : ∀ idx, idx ∉ after.dirty_indices → after.arena[idx]? = before.arena[idx]?

theorem Tracked.refl (self : ChainstateManager) : Tracked self self :=
  ⟨fun hat => ⟨_, hat, rfl, rfl⟩, Finset.Subset.refl _, fun _ _ => rfl⟩

theorem Tracked.trans {first second third : ChainstateManager} (hleft : Tracked first second)
    (hright : Tracked second third) : Tracked first third := by
  refine ⟨?_, hleft.dirty.trans hright.dirty, fun idx hidx => ?_⟩
  · intro idx index hat
    obtain ⟨mid, hmid, hhash, hwork⟩ := hleft.keep hat
    obtain ⟨last, hlast, hlast_hash, hlast_work⟩ := hright.keep hmid
    exact ⟨last, hlast, hlast_hash.trans hhash, hlast_work.trans hwork⟩
  · rw [hright.clean idx hidx]
    exact hleft.clean idx fun hmem => hidx (hright.dirty hmem)

theorem Updates.tracked {before after : ChainstateManager} (hupdates : Updates before after) :
    Tracked before after := by
  refine ⟨?_, hupdates.dirty, hupdates.clean⟩
  intro idx index hat
  obtain ⟨new, hnew, heq⟩ := getElem?_of_fixed hupdates.fixed.symm hat
  have hhash := congrArg BlockIndex.block_hash heq
  have hwork := congrArg BlockIndex.chain_work heq
  exact ⟨new, hnew, hhash, hwork⟩

variable {self : ChainstateManager} (env : Env)

theorem Indexed.add_header_tracked (hindexed : self.Indexed) (header : BlockHeader) {prev_idx : Nat}
    (hlt : prev_idx < self.arena.length) : Tracked self (self.add_header env header prev_idx) := by
  obtain ⟨skip, harena, _⟩ := hindexed.add_header_arena env header hlt
  refine ⟨?_, Finset.subset_insert _ _, ?_⟩
  · intro idx index hat
    refine ⟨index, ?_, rfl, rfl⟩
    rw [harena, List.getElem?_append_left (List.getElem?_eq_some_iff.mp hat).1, hat]
  · intro idx hidx
    have hne : idx ≠ self.arena.length := fun heq => hidx (heq ▸ Finset.mem_insert_self _ _)
    rw [harena]
    by_cases hin : idx < self.arena.length
    · exact List.getElem?_append_left hin
    · rw [List.getElem?_eq_none (by simp; omega), List.getElem?_eq_none (by omega)]

theorem Indexed.accept_block_header_tracked (hindexed : self.Indexed) (header : BlockHeader) (now : Int) :
    Tracked self (self.accept_block_header env header now).2 := by
  cases haccept : self.accept_block_header env header now with
  | mk result after =>
    cases result with
    | error e =>
      obtain rfl := accept_block_header_error env haccept
      exact .refl _
    | ok idx =>
      obtain ⟨_, rfl⟩ | ⟨prev_idx, _, hcheck, rfl, rfl⟩ := accept_block_header_ok env haccept
      · exact .refl _
      · exact hindexed.add_header_tracked env header (hindexed.find_lt (check_new_header_ok env hcheck).1)

theorem Indexed.apply_tracked (hindexed : self.Indexed) (event : Event) : Tracked self (self.apply env event) := by
  cases event with
  | block block now block_reader =>
    have hprocessed := self.process_new_block_processed env block now block_reader
    exact (hindexed.accept_block_header_tracked env block.header now).trans (hprocessed.updates env).tracked
  | header header now => exact hindexed.accept_block_header_tracked env header now
  | file_pos hash file data_pos =>
    unfold ChainstateManager.apply set_file_pos
    dsimp only
    split
    · next idx _ =>
      refine Updates.tracked (.update_entry self idx fun _ => ?_)
      rfl
    · exact .refl _
  | undo_pos hash undo_pos =>
    unfold ChainstateManager.apply set_undo_pos
    dsimp only
    split
    · next idx _ =>
      refine Updates.tracked (.update_entry self idx fun _ => ?_)
      rfl
    · exact .refl _
  | assume_valid hash => exact ⟨fun hat => ⟨_, hat, rfl, rfl⟩, Finset.Subset.refl _, fun _ _ => rfl⟩

end ChainstateManager

open ChainstateManager

theorem lookup_insert_key (db : BlockIndexDB) (key query value : Bytes) :
    (db.insert key value).lookup query = if query = key then some value else db.lookup query := by
  by_cases h : query = key
  · subst h
    simp
  · simp [h, AList.lookup_insert_ne h]

theorem lookup_write_of_ne {key : Bytes} {entries : List BlockIndex}
    (hne : ∀ entry ∈ entries, key ≠ block_index_key entry.block_hash) :
    ∀ db : BlockIndexDB, (write_block_indices db entries).lookup key = db.lookup key := by
  unfold write_block_indices
  induction entries with
  | nil => exact fun _ => rfl
  | cons entry rest ih =>
    intro db
    rw [List.foldl_cons, ih (fun other hmem => hne other (List.mem_cons_of_mem _ hmem)), lookup_insert_key,
      if_neg (hne entry (by simp))]

theorem lookup_write_of_mem {entry : BlockIndex} {entries : List BlockIndex} (hmem : entry ∈ entries)
    (honly : ∀ other ∈ entries, other.block_hash = entry.block_hash → other = entry) :
    ∀ db : BlockIndexDB, (write_block_indices db entries).lookup (block_index_key entry.block_hash) =
      some (serialize_block_index entry) := by
  induction entries with
  | nil => cases hmem
  | cons first rest ih =>
    intro db
    have hrest : ∀ other ∈ rest, other.block_hash = entry.block_hash → other = entry :=
      fun other hother => honly other (List.mem_cons_of_mem _ hother)
    by_cases hlater : entry ∈ rest
    · exact ih hlater hrest (db.insert (block_index_key first.block_hash) (serialize_block_index first))
    · have hfirst : entry = first := (List.mem_cons.mp hmem).resolve_right hlater
      subst hfirst
      have hne : ∀ other ∈ rest, block_index_key entry.block_hash ≠ block_index_key other.block_hash := by
        intro other hother heq
        have hsame := hrest other hother (block_index_key_injective heq).symm
        exact hlater (hsame ▸ hother)
      have hkept := lookup_write_of_ne hne
        (db.insert (block_index_key entry.block_hash) (serialize_block_index entry))
      rw [lookup_insert_key, if_pos rfl] at hkept
      exact hkept

/-- Every entry that is not dirty is stored, and only entries are. -/
structure Persisted (manager : ChainstateManager) (db : BlockIndexDB) : Prop where
  clean : ∀ {idx : Nat} {index : BlockIndex}, manager.arena[idx]? = some index → idx ∉ manager.dirty_indices →
    db.lookup (block_index_key index.block_hash) = some (serialize_block_index index)
  known : ∀ {key value : Bytes}, db.lookup key = some value →
    ∃ (idx : Nat) (index : BlockIndex), manager.arena[idx]? = some index ∧ key = block_index_key index.block_hash

theorem Persisted.tracked {before after : ChainstateManager} {db : BlockIndexDB} (hpersisted : Persisted before db)
    (htracked : Tracked before after) : Persisted after db := by
  constructor
  · intro idx index hat hidx
    rw [htracked.clean idx hidx] at hat
    exact hpersisted.clean hat fun hmem => hidx (htracked.dirty hmem)
  · intro key value hlookup
    obtain ⟨idx, index, hat, rfl⟩ := hpersisted.known hlookup
    obtain ⟨new, hnew, hhash, _⟩ := htracked.keep hat
    exact ⟨idx, new, hnew, by rw [hhash]⟩

theorem Persisted.flush {manager : ChainstateManager} {db : BlockIndexDB} (hindexed : manager.Indexed)
    (hpersisted : Persisted manager db) {listed : List Nat} (hlisted : listed.toFinset = manager.dirty_indices) :
    Persisted manager.clear_dirty (write_block_indices db (manager.dirty_block_indices listed)) := by
  have hwritten : ∀ {entry : BlockIndex}, entry ∈ manager.dirty_block_indices listed ↔
      ∃ idx ∈ manager.dirty_indices, manager.arena[idx]? = some entry := by
    intro entry
    unfold dirty_block_indices
    rw [List.mem_filterMap, ← hlisted]
    simp only [List.mem_toFinset]
    rfl
  constructor
  · intro idx index hat _
    have hat : manager.arena[idx]? = some index := hat
    by_cases hdirty : idx ∈ manager.dirty_indices
    · refine lookup_write_of_mem (hwritten.mpr ⟨idx, hdirty, hat⟩) (fun other hmem hhash => ?_) db
      obtain ⟨j, _, hj⟩ := hwritten.mp hmem
      obtain rfl := hindexed.hash_injective hj hat hhash
      rw [hat] at hj
      exact (Option.some.inj hj).symm
    · rw [lookup_write_of_ne (fun entry hmem heq => ?_) db]
      · exact hpersisted.clean hat hdirty
      · obtain ⟨j, hj_dirty, hj⟩ := hwritten.mp hmem
        obtain rfl := hindexed.hash_injective hat hj (block_index_key_injective heq)
        exact hdirty hj_dirty
  · intro key value hlookup
    by_cases hkey : ∃ entry ∈ manager.dirty_block_indices listed, key = block_index_key entry.block_hash
    · obtain ⟨entry, hmem, rfl⟩ := hkey
      obtain ⟨j, _, hj⟩ := hwritten.mp hmem
      exact ⟨j, entry, hj, rfl⟩
    · rw [lookup_write_of_ne (fun entry hmem heq => hkey ⟨entry, hmem, heq⟩) db] at hlookup
      exact hpersisted.known hlookup

theorem Persisted.load_all_perm {manager : ChainstateManager} {db : BlockIndexDB} (hindexed : manager.Indexed)
    (hpersisted : Persisted manager db) (hclean : manager.dirty_indices = ∅) :
    (load_all db).Perm (manager.arena.map to_record) := by
  have hfits : ∀ {idx : Nat} {index : BlockIndex}, manager.arena[idx]? = some index →
      IntType.i32.fits index.height := by
    intro idx index hat
    have hnonneg := hindexed.tree.height_nonneg hat
    have hlt := hindexed.height_lt hat
    exact ⟨by omega, hlt⟩
  -- The stored pairs, and what is read back from each.
  have hentry : ∀ {key value : Bytes}, ⟨key, value⟩ ∈ db.entries → ∃ (idx : Nat) (index : BlockIndex),
      manager.arena[idx]? = some index ∧ key = block_index_key index.block_hash ∧
        load_record key value = some (to_record index) := by
    intro key value hmem
    have hlookup : db.lookup key = some value := AList.mem_lookup_iff.mpr hmem
    obtain ⟨idx, index, hat, rfl⟩ := hpersisted.known hlookup
    rw [hpersisted.clean hat (by simp [hclean])] at hlookup
    cases hlookup
    exact ⟨idx, index, hat, rfl, by rw [load_record_key, deserialize_serialize index (hfits hat)]⟩
  have hrecords_nodup : (manager.arena.map to_record).Nodup := by
    have hhashes : ((manager.arena.map to_record).map BlockIndexRecord.block_hash).Nodup := by
      rw [List.map_map]
      exact hindexed.hashes_nodup
    exact List.Nodup.of_map _ hhashes
  have hload_nodup : (load_all db).Nodup := by
    unfold load_all
    rw [List.Nodup, List.pairwise_filterMap]
    have hkeys : db.entries.Pairwise fun left right => left.1 ≠ right.1 :=
      List.pairwise_map.mp db.nodupKeys
    refine hkeys.imp_of_mem fun hleft hright hne record hrecord other hother heq => ?_
    obtain ⟨_, index, _, hkey, hload⟩ := hentry hleft
    obtain ⟨_, index', _, hkey', hload'⟩ := hentry hright
    rw [hload] at hrecord
    rw [hload'] at hother
    cases hrecord
    cases hother
    have hhash : index.block_hash = index'.block_hash := congrArg BlockIndexRecord.block_hash heq
    exact hne (by rw [hkey, hkey', hhash])
  refine (List.perm_ext_iff_of_nodup hload_nodup hrecords_nodup).mpr fun record => ?_
  unfold load_all
  rw [List.mem_filterMap, List.mem_map]
  constructor
  · rintro ⟨⟨key, value⟩, hmem, hrecord⟩
    obtain ⟨idx, index, hat, _, hload⟩ := hentry hmem
    rw [hload] at hrecord
    exact ⟨index, List.mem_of_getElem? hat, Option.some.inj hrecord⟩
  · rintro ⟨index, hmem, rfl⟩
    obtain ⟨idx, hat⟩ := List.mem_iff_getElem?.mp hmem
    have hlookup := hpersisted.clean hat (by simp [hclean])
    refine ⟨⟨_, _⟩, AList.mem_lookup_iff.mp hlookup, ?_⟩
    rw [load_record_key, deserialize_serialize index (hfits hat)]

variable (env : Env)

/-- An event of the chainstate, or a flush of the block index that writes the dirty
    entries as the set lists them. -/
inductive StoreEvent where
  | event (event : Event)
  | flush (listed : List Nat)

/-- A step of the manager with its database. -/
def StoreStep (state : ChainstateManager × BlockIndexDB) :
    StoreEvent → ChainstateManager × BlockIndexDB → Prop
  | .event event, next => next = (state.1.apply env event, state.2)
  | .flush listed, next => listed.toFinset = state.1.dirty_indices ∧
      next = (state.1.clear_dirty, write_block_indices state.2 (state.1.dirty_block_indices listed))

/-- What holds of a manager and its database along a run. -/
structure Stored (manager : ChainstateManager) (db : BlockIndexDB) : Prop extends Sound manager where
  persisted : Persisted manager db
  work : (manager.entry 0).chain_work ≠ 0

theorem Sound.clear_dirty {manager : ChainstateManager} (hsound : manager.Sound) : manager.clear_dirty.Sound :=
  ⟨⟨hsound.tree, hsound.nonempty, hsound.by_hash, hsound.root, hsound.child, hsound.height_lt⟩, hsound.chain,
    hsound.best, hsound.genesis, hsound.flags⟩

theorem Stored.step {state next : ChainstateManager × BlockIndexDB} {event : StoreEvent}
    (hstored : Stored state.1 state.2) (hstep : StoreStep env state event next) : Stored next.1 next.2 := by
  obtain ⟨manager, db⟩ := state
  cases event with
  | event event =>
    obtain rfl := hstep
    have htracked := hstored.toIndexed.apply_tracked env event
    refine ⟨Sound.apply env hstored.toSound event, hstored.persisted.tracked htracked, ?_⟩
    obtain ⟨new, hnew, _, hwork⟩ := htracked.keep (getElem?_entry hstored.nonempty)
    rw [entry_eq hnew, hwork]
    exact hstored.work
  | flush listed =>
    obtain ⟨hlisted, rfl⟩ := hstep
    exact ⟨Sound.clear_dirty hstored.toSound, hstored.persisted.flush hstored.toIndexed hlisted, hstored.work⟩

theorem genesis_work_ne_zero (params : ChainParams) :
    (genesis_index env (params.create_genesis_block env.hash256)).chain_work ≠ 0 := by
  have hproof : ∀ network, get_bits_proof (genesis_header network).2.1 ≠ 0 := by
    intro network
    cases network <;> decide +kernel
  exact hproof params.network

theorem FromGenesis.stored {params : ChainParams} {base : CoinsViewDB} {start : ChainstateManager}
    (hstart : FromGenesis env params base start) : Stored start ∅ := by
  have hsound := FromGenesis.sound env hstart
  obtain ⟨coins_tip, _, rfl⟩ := load_genesis_block_new env hstart
  refine ⟨hsound, ⟨?_, ?_⟩, genesis_work_ne_zero env params⟩
  · intro idx index hat hidx
    have hlt := (List.getElem?_eq_some_iff.mp hat).1
    exact absurd (by simpa [arena] using hlt) (by simpa using hidx)
  · intro key value hlookup
    simp at hlookup

/-- The index that is loaded is the one that was stored: the same blocks with the
    same data, the same parents, ancestors and median times by hash, and an active
    chain that is the path of a fully valid block of maximal work. -/
structure Reloaded (manager loaded : ChainstateManager) : Prop where
  blocks : ∀ hash, (loaded.block_index.find_by_hash hash).isSome = (manager.block_index.find_by_hash hash).isSome
  length : loaded.arena.length = manager.arena.length
  data : ∀ {hash : BlockHash} {i j : Nat}, manager.block_index.find_by_hash hash = some i →
    loaded.block_index.find_by_hash hash = some j →
    { loaded.entry j with prev := none, skip := none } = { manager.entry i with prev := none, skip := none }
  parent : ∀ {hash : BlockHash} {i j : Nat}, manager.block_index.find_by_hash hash = some i →
    loaded.block_index.find_by_hash hash = some j →
    ((loaded.entry j).prev.map fun idx => (loaded.entry idx).block_hash) =
      (manager.entry i).prev.map fun idx => (manager.entry idx).block_hash
  ancestors : ∀ {hash : BlockHash} {i j : Nat}, manager.block_index.find_by_hash hash = some i →
    loaded.block_index.find_by_hash hash = some j → ∀ height,
    ((get_ancestor loaded.arena j height).map fun idx => (loaded.entry idx).block_hash) =
      (get_ancestor manager.arena i height).map fun idx => (manager.entry idx).block_hash
  median : ∀ {hash : BlockHash} {i j : Nat}, manager.block_index.find_by_hash hash = some i →
    loaded.block_index.find_by_hash hash = some j →
    compute_mtp loaded.arena j = compute_mtp manager.arena i
  chain : ∃ tip, AncestorPath loaded.arena tip loaded.chain.chain ∧
    (loaded.entry tip).status.has_failed = false ∧
    (loaded.entry tip).is_valid BlockStatus.VALID_SCRIPTS = true ∧
    ∀ idx < loaded.arena.length, (loaded.entry idx).status.has_failed = false →
      (loaded.entry idx).is_valid BlockStatus.VALID_SCRIPTS = true →
      (loaded.entry idx).chain_work ≤ (loaded.entry tip).chain_work

theorem unlinked_with_time_max {index other : BlockIndex} (hsame : unlinked index = unlinked other)
    (htime : index.time_max = other.time_max) :
    { index with prev := none, skip := none } = { other with prev := none, skip := none } := by
  calc { index with prev := none, skip := none }
      = { unlinked index with time_max := index.time_max } := rfl
    _ = { unlinked other with time_max := other.time_max } := by rw [hsame, htime]
    _ = { other with prev := none, skip := none } := rfl

theorem Sound.reloaded {manager : ChainstateManager} (hsound : manager.Sound)
    (hwork : (manager.entry 0).chain_work ≠ 0)
    (hnull : ∀ {idx : Nat} {index : BlockIndex}, manager.arena[idx]? = some index → index.block_hash ≠ 0)
    {records : List BlockIndexRecord} (hrecords : records.Perm (manager.arena.map to_record)) (params : ChainParams)
    (base : CoinsViewDB) : Reloaded manager ((ChainstateManager.new params base).load_block_index records) := by
  obtain ⟨loaded, tip, heq, hloaded, hmap, _, hpath, _, hvalid, hmax⟩ :=
    Sound.load_block_index hrecords hsound.toIndexed hnull hsound hwork params base
  obtain ⟨horigin, hthere⟩ := load_entries hrecords hsound.toIndexed hnull
  obtain ⟨_, _, hsame⟩ := load_arena hrecords hsound.toIndexed hnull
  have harena : loaded.arena = (BlockMap.new.load records).indices := congrArg BlockMap.indices hmap
  rw [← harena] at horigin hthere hsame
  rw [heq]
  have hcover : ∀ {i : Nat}, i < manager.arena.length → ∃ j, Twin manager loaded i j := by
    intro i hlt
    obtain ⟨j, twin, htwin, hsame⟩ := hthere (getElem?_entry hlt)
    exact ⟨j, _, twin, getElem?_entry hlt, htwin, hsame.symm⟩
  -- The two indices of a hash are twins.
  have htwin : ∀ {hash : BlockHash} {i j : Nat}, manager.block_index.find_by_hash hash = some i →
      loaded.block_index.find_by_hash hash = some j → Twin manager loaded i j := by
    intro hash i j hi hj
    obtain ⟨index, hat, rfl⟩ := hsound.by_hash.mp hi
    obtain ⟨twin, htwin_at, hhash⟩ := hloaded.by_hash.mp hj
    obtain ⟨k, hk⟩ := hcover (List.getElem?_eq_some_iff.mp hat).1
    have hk_hash := hk.block_hash
    obtain ⟨_, found, _, hfound, _⟩ := id hk
    rw [entry_eq hat, entry_eq hfound] at hk_hash
    have hplace : k = j := hloaded.hash_injective hfound htwin_at (hk_hash.symm.trans hhash.symm)
    exact hplace ▸ hk
  refine ⟨?_, ?_, ?_, ?_, ?_, ?_, tip, hpath, ?_, hvalid, fun idx hlt _ hidx => hmax idx hlt hidx⟩
  · intro hash
    rw [Bool.eq_iff_iff, Option.isSome_iff_exists, Option.isSome_iff_exists]
    constructor
    · rintro ⟨j, hj⟩
      obtain ⟨twin, hat, rfl⟩ := hloaded.by_hash.mp hj
      obtain ⟨i, old, hold, hsame⟩ := horigin hat
      exact ⟨i, hsound.by_hash.mpr ⟨old, hold, (unlinked_hash hsame).1.symm⟩⟩
    · rintro ⟨i, hi⟩
      obtain ⟨index, hat, rfl⟩ := hsound.by_hash.mp hi
      obtain ⟨j, twin, htwin_at, hsame⟩ := hthere hat
      exact ⟨j, hloaded.by_hash.mpr ⟨twin, htwin_at, (unlinked_hash hsame).1⟩⟩
  · have hlength := congrArg List.length hsame
    rw [List.length_map, (loaded_entries_perm hrecords).length_eq, List.length_map] at hlength
    exact hlength
  · intro hash i j hi hj
    have hpair := htwin hi hj
    have htime := hpair.time_max hsound.toIndexed hloaded.toIndexed hcover
    obtain ⟨index, twin, hat, htwin_at, hsame⟩ := hpair
    rw [entry_eq hat, entry_eq htwin_at] at htime ⊢
    exact unlinked_with_time_max hsame.symm htime.symm
  · intro hash i j hi hj
    have hparent := (htwin hi hj).parent hsound.toIndexed hloaded.toIndexed hcover
    have hleft : parent_of manager.arena i = (manager.entry i).prev := rfl
    have hright : parent_of loaded.arena j = (loaded.entry j).prev := rfl
    rw [hleft, hright] at hparent
    generalize (manager.entry i).prev = left at hparent ⊢
    generalize (loaded.entry j).prev = right at hparent ⊢
    cases hparent with
    | some hrel => exact congrArg some hrel.block_hash.symm
    | none => rfl
  · intro hash i j hi hj height
    exact ((htwin hi hj).get_ancestor hsound.toIndexed hloaded.toIndexed hcover height).symm
  · intro hash i j hi hj
    exact ((htwin hi hj).compute_mtp hsound.toIndexed hloaded.toIndexed hcover).symm
  · exact BlockStatus.not_has_failed_of_is_valid hvalid (hloaded.flags (getElem?_entry hpath.1))

/-- After every run from genesis with a flush at its end, the records of the
    database, in any order, load as the same block tree. The null hash stands for no
    block, and no block has it. -/
theorem reload_rebuilds_tree {params : ChainParams} {base fresh : CoinsViewDB}
    {start before after : ChainstateManager} {stored db : BlockIndexDB} {events : List StoreEvent} {listed : List Nat}
    {records : List BlockIndexRecord} (hstart : FromGenesis env params base start)
    (hrun : Trace (StoreStep env) (start, ∅) events (before, stored))
    (hflush : StoreStep env (before, stored) (.flush listed) (after, db))
    (hnull : ∀ idx < after.arena.length, (after.entry idx).block_hash ≠ 0)
    (hrecords : records.Perm (load_all db)) :
    Reloaded after ((ChainstateManager.new params fresh).load_block_index records) := by
  have hbefore : Stored before stored := by
    refine hrun.invariant (fun state => Stored state.1 state.2) ?_ (FromGenesis.stored env hstart)
    exact fun hinv hstep => Stored.step env hinv hstep
  have hafter : Stored after db := Stored.step env hbefore hflush
  obtain ⟨_, heq⟩ := hflush
  have hclean : after.dirty_indices = ∅ := congrArg (fun state => state.1.dirty_indices) heq
  refine Sound.reloaded hafter.toSound hafter.work (fun {idx index} hat => ?_)
    (hrecords.trans (hafter.persisted.load_all_perm hafter.toIndexed hclean)) params fresh
  rw [← entry_eq hat]
  exact hnull idx (List.getElem?_eq_some_iff.mp hat).1

theorem StoreStep.of_event (manager : ChainstateManager) (db : BlockIndexDB) (event : Event) :
    StoreStep env (manager, db) (.event event) (manager.apply env event, db) := rfl

theorem StoreStep.of_flush {manager : ChainstateManager} (db : BlockIndexDB) {listed : List Nat}
    (hlisted : listed.toFinset = manager.dirty_indices) :
    StoreStep env (manager, db) (.flush listed)
      (manager.clear_dirty, write_block_indices db (manager.dirty_block_indices listed)) := ⟨hlisted, rfl⟩

/-- A manager with genesis and the block on top of it, and its database. -/
def first_manager : ChainstateManager := regtest_manager.apply .op_true (.block first_block regtest_now none)

def first_database : BlockIndexDB := write_block_indices ∅ (first_manager.dirty_block_indices [1, 0])

theorem first_manager_facts :
    [1, 0].toFinset = first_manager.dirty_indices ∧
    (∀ idx < first_manager.clear_dirty.arena.length, (first_manager.clear_dirty.entry idx).block_hash ≠ 0) ∧
    ∀ record ∈ (load_all first_database).reverse, record.block_hash ≠ 0 := by
  decide +kernel

theorem reload_rebuilds_tree_first_block :
    Reloaded first_manager.clear_dirty
      ((ChainstateManager.new .regtest ⟨∅, 0⟩).load_block_index (load_all first_database).reverse) := by
  obtain ⟨hlisted, hnull, _⟩ := first_manager_facts
  exact reload_rebuilds_tree .op_true regtest_manager_from_genesis
    (.cons (StoreStep.of_event .op_true regtest_manager ∅ (.block first_block regtest_now none)) (.nil _))
    (StoreStep.of_flush .op_true ∅ hlisted) hnull (List.reverse_perm _)

end qubitcoin.chainstate

/-! The chain that a restart finds: the records of an index lead back to the tip that the index
    had, if that is the only fully valid block of its work. -/

namespace qubitcoin.chainstate

namespace ChainstateManager

variable {self other manager loaded : ChainstateManager}

theorem path_hashes_eq (hself : self.Indexed) (hother : other.Indexed) {r : Nat → Nat → Prop}
    (hcover : ∀ {i : Nat}, i < self.arena.length → ∃ j, r i j) (hmatched : ∀ {i j : Nat}, r i j → Matched self other i j)
    {i j : Nat} (hij : r i j) {path path_other : List Nat} (hpath : AncestorPath self.arena i path)
    (hpath_other : AncestorPath other.arena j path_other) :
    path.map (fun idx => (self.entry idx).block_hash) = path_other.map fun idx => (other.entry idx).block_hash :=
  IsPath.map_eq (fun hrel => Matched.parent hself hother hcover hmatched (hmatched hrel)) hij (hmatched hij).height hpath.2
    hpath_other.2 fun hrel => (hmatched hrel).block_hash

/-- The active tip is fully valid, and has more work than any other block that is. -/
def Sole (self : ChainstateManager) : Prop :=
  ∃ tip, self.chain.tip = some tip ∧ self.valid_at tip = true ∧ ∀ idx < self.arena.length, self.valid_at idx = true →
    idx ≠ tip → (self.entry idx).chain_work < (self.entry tip).chain_work

theorem Twin.valid_at {i j : Nat} (htwin : Twin self other i j) : self.valid_at i = other.valid_at j := by
  obtain ⟨index, twin, hat, htwin_at, hsame⟩ := htwin
  have hstatus := congrArg BlockIndex.status hsame
  have hstatus : index.status = twin.status := hstatus
  unfold ChainstateManager.valid_at BlockIndex.is_valid
  rw [entry_eq hat, entry_eq htwin_at, hstatus]

theorem Twin.chain_work {i j : Nat} (htwin : Twin self other i j) :
    (self.entry i).chain_work = (other.entry j).chain_work := by
  obtain ⟨index, twin, hat, htwin_at, hsame⟩ := htwin
  have hwork := congrArg BlockIndex.chain_work hsame
  rw [entry_eq hat, entry_eq htwin_at]
  exact hwork

theorem Twin.lt {i j : Nat} (htwin : Twin self other i j) : i < self.arena.length ∧ j < other.arena.length := by
  obtain ⟨_, _, hat, htwin_at, _⟩ := htwin
  exact ⟨(List.getElem?_eq_some_iff.mp hat).1, (List.getElem?_eq_some_iff.mp htwin_at).1⟩

/-- The manager is loaded from the records of another one: its blocks are those of the other,
    and its chain ends at a fully valid block of the most work. -/
structure Rebuilt (manager loaded : ChainstateManager) : Prop extends Headed loaded where
  source : manager.Sound
  cover : ∀ {i : Nat}, i < manager.arena.length → ∃ j, Twin manager loaded i j
  origin : ∀ {j : Nat}, j < loaded.arena.length → ∃ i, Twin manager loaded i j
  heaviest : ∃ tip, AncestorPath loaded.arena tip loaded.chain.chain ∧ loaded.valid_at tip = true ∧
    ∀ idx < loaded.arena.length, loaded.valid_at idx = true →
      (loaded.entry idx).chain_work ≤ (loaded.entry tip).chain_work

theorem Sound.rebuilt (hsound : manager.Sound) (hwork : (manager.entry 0).chain_work ≠ 0)
    (hnull : ∀ {idx : Nat} {index : BlockIndex}, manager.arena[idx]? = some index → index.block_hash ≠ 0)
    {records : List BlockIndexRecord} (hrecords : records.Perm (manager.arena.map to_record)) (params : ChainParams)
    (base : CoinsViewDB) :
    Rebuilt manager ((ChainstateManager.new params base).load_block_index records) ∧
      ((ChainstateManager.new params base).load_block_index records).coins_tip = .new base := by
  obtain ⟨loaded, tip, heq, hloaded, hmap, hcoins, hpath, hbest, hvalid, hmax⟩ :=
    Sound.load_block_index hrecords hsound.toIndexed hnull hsound hwork params base
  obtain ⟨horigin, hthere⟩ := load_entries hrecords hsound.toIndexed hnull
  have harena : loaded.arena = (BlockMap.new.load records).indices := congrArg BlockMap.indices hmap
  rw [← harena] at horigin hthere
  rw [heq]
  refine ⟨⟨⟨hloaded, tip, hpath, hbest⟩, hsound, fun hlt => ?_, fun hlt => ?_, tip, hpath, hvalid, hmax⟩, hcoins⟩
  · obtain ⟨j, twin, htwin, hsame⟩ := hthere (getElem?_entry hlt)
    exact ⟨j, _, twin, getElem?_entry hlt, htwin, hsame.symm⟩
  · obtain ⟨i, old, hold, hsame⟩ := horigin (getElem?_entry hlt)
    exact ⟨i, old, _, hold, getElem?_entry hlt, hsame.symm⟩

theorem Rebuilt.tip_twin (hrebuilt : Rebuilt manager loaded) (hsole : manager.Sole) :
    ∃ tip found, manager.chain.tip = some tip ∧ AncestorPath loaded.arena found loaded.chain.chain ∧
      Twin manager loaded tip found := by
  obtain ⟨tip, htip, hvalid, hless⟩ := hsole
  obtain ⟨found, hpath, hfound, hmost⟩ := hrebuilt.heaviest
  obtain ⟨i, hi⟩ := hrebuilt.origin hpath.1
  by_cases hsame : i = tip
  · exact ⟨tip, found, htip, hpath, hsame ▸ hi⟩
  · have hlt := hless i hi.lt.1 (hi.valid_at.trans hfound) hsame
    obtain ⟨other, hchain⟩ := hrebuilt.source.chain
    obtain rfl : other = tip := Option.some.inj ((tip_of_path hchain).symm.trans htip)
    obtain ⟨j, hj⟩ := hrebuilt.cover hchain.1
    have hle := hmost j hj.lt.2 (hj.valid_at.symm.trans hvalid)
    rw [hi.chain_work, hj.chain_work] at hlt
    exact absurd hle (BitVec.not_le.mpr hlt)

theorem Rebuilt.active_hashes (hrebuilt : Rebuilt manager loaded) (hsole : manager.Sole) :
    loaded.active_hashes = manager.active_hashes := by
  obtain ⟨tip, found, htip, hpath, htwin⟩ := hrebuilt.tip_twin hsole
  obtain ⟨other, hchain⟩ := hrebuilt.source.chain
  obtain rfl : other = tip := Option.some.inj ((tip_of_path hchain).symm.trans htip)
  exact (path_hashes_eq hrebuilt.source.toIndexed hrebuilt.toIndexed hrebuilt.cover Twin.matched htwin hchain hpath).symm

theorem Rebuilt.stored (hrebuilt : Rebuilt manager loaded) {db : BlockIndexDB} (hstored : Stored manager db)
    (hclean : manager.dirty_indices = ∅) : Stored loaded db := by
  have hwritten : ∀ {index twin : BlockIndex}, unlinked index = unlinked twin →
      serialize_block_index index = serialize_block_index twin := by
    intro index twin hsame
    calc serialize_block_index index
        = serialize_block_index (unlinked index) := rfl
      _ = serialize_block_index (unlinked twin) := by rw [hsame]
      _ = serialize_block_index twin := rfl
  refine ⟨hrebuilt.toSound, ⟨fun {j index} hat _ => ?_, fun {key value} hlookup => ?_⟩, ?_⟩
  · obtain ⟨i, old, twin, hold, htwin, hsame⟩ := hrebuilt.origin (List.getElem?_eq_some_iff.mp hat).1
    obtain rfl : twin = index := Option.some.inj (htwin.symm.trans hat)
    rw [← (unlinked_hash hsame).1, ← hwritten hsame]
    exact hstored.persisted.clean hold (by rw [hclean]; exact Finset.notMem_empty i)
  · obtain ⟨i, index, hat, rfl⟩ := hstored.persisted.known hlookup
    obtain ⟨j, old, twin, hold, htwin, hsame⟩ := hrebuilt.cover (List.getElem?_eq_some_iff.mp hat).1
    obtain rfl : old = index := Option.some.inj (hold.symm.trans hat)
    exact ⟨j, twin, htwin, congrArg block_index_key (unlinked_hash hsame).1⟩
  · obtain ⟨j, hj⟩ := hrebuilt.cover hstored.nonempty
    have hzero : j = 0 := by
      have hheight := hj.height
      rw [hstored.tree.height_zero] at hheight
      exact hrebuilt.tree.eq_zero_of_height hj.lt.2 hheight.symm
    subst hzero
    rw [← hj.chain_work]
    exact hstored.work

end ChainstateManager

end qubitcoin.chainstate
