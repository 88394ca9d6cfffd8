import Qubitcoin.Indexer.Surviving

/-! Pruning after deferred rollbacks: when it is invisible to readers. -/

open qubitcoin.indexer.state

namespace qubitcoin.indexer.storage

inductive PruneCall where
  | append_batch_with_hash (batch : Batch)
  | rollback_deferred (target_height : UInt32)
  | prune_orphaned

def IndexerStorage.apply (self : IndexerStorage) : PruneCall → IndexerStorage
  | .append_batch_with_hash batch => self.append_batch_with_hash batch.pairs batch.height batch.block_hash8
  | .rollback_deferred target_height => (rollback_deferred self target_height).1
  | .prune_orphaned => (prune_orphaned self).1

def IndexerStorage.Admits (keys : Bytes → Prop) (self : IndexerStorage) : PruneCall → Prop
  | .append_batch_with_hash batch => Fits keys self batch.pairs
  | .rollback_deferred _ | .prune_orphaned => True

/-- An entry that pruning takes for orphaned. -/
def orphaned_at (storage : IndexerStorage) (rh : UInt32) (key : Bytes) (i : Nat) : Bool :=
  match storage.get (entry_height_key key (UInt32.ofNat i)) with
  | some h_data =>
    decide (4 ≤ h_data.length) && decide (rh ≤ from_le_bytes h_data) && !is_canonical storage h_data
  | none => false

/-- An entry that reads pass over: its height has the hash of another block. -/
def replaced_at (storage : IndexerStorage) (rh : UInt32) (key : Bytes) (i : Nat) : Bool :=
  orphaned_at storage rh key i &&
    match storage.get (entry_height_key key (UInt32.ofNat i)) with
    | some h_data => (storage.get_canonical_hash (from_le_bytes h_data)).isSome
    | none => false

/-- The number of indices directly below `n` with a property. -/
def run_below (p : Nat → Bool) : Nat → Nat
  | 0 => 0
  | n + 1 => if p n then run_below p n + 1 else 0

/-- The keys in the key sets that pruning visits. -/
def prune_names (storage : IndexerStorage) (rh : UInt32) : List Bytes :=
  (heights rh (max storage.tip_height (rh + 10000))).flatMap fun h =>
    ((storage.get (height_keyset_key h)).map decode_key_set).getD []

/-- The last of the first `n` values of a key. -/
def value_before (storage : IndexerStorage) (key : Bytes) : Nat → Option Bytes
  | 0 => none
  | n + 1 => storage.get_at_index key (UInt32.ofNat n)

/-- How many entries of a key pruning leaves: one goes for each time the key is named, as
    long as the last one is orphaned. -/
def pruned_len (storage : IndexerStorage) (rh : UInt32) (key : Bytes) : Nat :=
  (storage.get_length key).toNat -
    min ((prune_names storage rh).count key) (run_below (orphaned_at storage rh key) (storage.get_length key).toNat)

def read_len (storage : IndexerStorage) (rh : UInt32) (key : Bytes) : Nat :=
  (storage.get_length key).toNat - run_below (replaced_at storage rh key) (storage.get_length key).toNat

/-- Pruning removes exactly the entries that reads pass over, or leaves the same value last. -/
def PrunesWhatReadsSkip (storage : IndexerStorage) (key : Bytes) : Prop :=
  match storage.reorg_height with
  | none => True
  | some rh =>
    pruned_len storage rh key = read_len storage rh key ∨
      value_before storage key (pruned_len storage rh key) = value_before storage key (read_len storage rh key)

variable {keys : Bytes → Prop} {storage : IndexerStorage} {lists : Lists}

theorem iterate_trim (p : Entry → Bool) (n : Nat) (list : List Entry) :
    (trim p)^[n] list = list.take (list.length - min n (list.rtakeWhile p).length) := by
  induction list using List.reverseRecOn generalizing n with
  | nil =>
    have hnil : trim p [] = [] := rfl
    simp [Function.iterate_fixed hnil]
  | append_singleton list entry ih =>
    cases hp : p entry with
    | false =>
      have hfixed : trim p (list ++ [entry]) = list ++ [entry] := by simp [trim, hp]
      rw [Function.iterate_fixed hfixed, List.rtakeWhile_concat_neg _ _ _ (by simp [hp])]
      simp
    | true =>
      rw [List.rtakeWhile_concat_pos _ _ _ hp]
      cases n with
      | zero => simp
      | succ n =>
        have htrim : trim p (list ++ [entry]) = list := by simp [trim, hp]
        rw [Function.iterate_succ_apply, htrim, ih, List.length_append, List.length_append, List.length_singleton]
        have hle := (List.rtakeWhile_suffix p list).length_le
        rw [List.take_append_of_le_length (by omega)]
        congr 1
        omega

theorem run_below_eq {p : Nat → Bool} {q : Entry → Bool} {list : List Entry}
    (hsame : ∀ i entry, list[i]? = some entry → p i = q entry) (n : Nat) (hn : n ≤ list.length) :
    run_below p n = ((list.take n).rtakeWhile q).length := by
  induction n with
  | zero => rfl
  | succ n ih =>
    have hentry := List.getElem?_eq_getElem (show n < list.length by omega)
    rw [run_below, hsame n _ hentry, ih (by omega), List.take_add_one, hentry, Option.toList_some,
      List.rtakeWhile_concat]
    split <;> simp

theorem Represents.orphaned_at_eq (hrep : Represents keys storage lists) {key : Bytes} (hkey : keys key)
    (rh : UInt32) (i : Nat) (entry : Entry) (hentry : (lists.list key)[i]? = some entry) :
    orphaned_at storage rh key i = lists.orphaned rh entry := by
  have hdated := hrep.dated key hkey entry (List.mem_of_getElem? hentry)
  rw [Bool.eq_iff_iff, hrep.orphaned_iff]
  unfold orphaned_at
  rw [hrep.get_entry_height hkey hentry]
  simp [hdated, Entry.height]

theorem Lists.replaced_eq {rh : UInt32} (hreorg : lists.reorg = some rh) (entry : Entry) :
    lists.replaced entry = (lists.orphaned rh entry && (lists.hash entry.height).isSome) := by
  unfold Lists.replaced Lists.orphaned
  rw [hreorg]
  cases lists.hash entry.height with
  | none => simp
  | some hash => simp

theorem Represents.replaced_at_eq (hrep : Represents keys storage lists) {key : Bytes} (hkey : keys key)
    {rh : UInt32} (hreorg : lists.reorg = some rh) (i : Nat) (entry : Entry)
    (hentry : (lists.list key)[i]? = some entry) : replaced_at storage rh key i = lists.replaced entry := by
  unfold replaced_at
  rw [hrep.orphaned_at_eq hkey rh i entry hentry, hrep.get_entry_height hkey hentry, Lists.replaced_eq hreorg]
  dsimp only
  rw [hrep.get_canonical_hash]
  rfl

theorem Represents.value_before_eq (hrep : Represents keys storage lists) {key : Bytes} (hkey : keys key) {n : Nat}
    (hn : n ≤ (lists.list key).length) :
    value_before storage key n = ((lists.list key).take n).getLast?.map Entry.value := by
  cases n with
  | zero => simp [value_before]
  | succ n =>
    have hentry := List.getElem?_eq_getElem (show n < (lists.list key).length by omega)
    rw [value_before, hrep.get_index hkey hentry, List.take_add_one, hentry, Option.toList_some,
      List.getLast?_concat, Option.map_some]

theorem Represents.read_before (hrep : Represents keys storage lists) {key : Bytes} (hkey : keys key) {rh : UInt32}
    (hreorg : lists.reorg = some rh) :
    storage.get_latest_canonical key = value_before storage key (read_len storage rh key) := by
  have hrun := run_below_eq (hrep.replaced_at_eq hkey hreorg) _ (le_refl _)
  rw [List.take_length] at hrun
  have hsplit := @List.rdropWhile_append_rtakeWhile _ lists.replaced (lists.list key)
  have hlength := congrArg List.length hsplit
  rw [List.length_append] at hlength
  have hread : read_len storage rh key = ((lists.list key).rdropWhile lists.replaced).length := by
    unfold read_len
    rw [hrep.get_length hkey, hrun]
    omega
  rw [hrep.get_latest_canonical hkey, hread, hrep.value_before_eq hkey (by omega), Lists.latest_canonical,
    ← List.prefix_iff_eq_take.mp (List.rdropWhile_prefix _ _)]

theorem Represents.prune_names_eq (hrep : Represents keys storage lists) (rh : UInt32) :
    prune_names storage rh = lists.names (heights rh (max lists.tip (rh + 10000))) := by
  have hnames : (fun h => ((storage.get (height_keyset_key h)).map decode_key_set).getD []) =
      fun h => (lists.keyset h).getD [] := by
    funext h
    rw [hrep.get_keyset]
  unfold prune_names Lists.names
  rw [hrep.tip_height, hnames]

theorem Represents.read_after (hsep : Separate keys) (hrep : Represents keys storage lists) {key : Bytes}
    (hkey : keys key) {rh : UInt32} (hreorg : lists.reorg = some rh) :
    (prune_orphaned storage).1.get_latest_canonical key = value_before storage key (pruned_len storage rh key) := by
  have hrun := run_below_eq (hrep.orphaned_at_eq hkey rh) _ (le_refl _)
  rw [List.take_length] at hrun
  have hpruned : pruned_len storage rh key = (lists.list key).length -
      min ((lists.names (heights rh (max lists.tip (rh + 10000)))).count key)
        ((lists.list key).rtakeWhile (lists.orphaned rh)).length := by
    unfold pruned_len
    rw [hrep.get_length hkey, hrep.prune_names_eq, hrun]
  rw [(hrep.pruned hsep).get_latest_canonical hkey, hrep.value_before_eq hkey (hpruned ▸ Nat.sub_le _ _), hpruned,
    ← iterate_trim]
  have hall (entry : Entry) : lists.prune.replaced entry = false := by simp [Lists.replaced, Lists.prune, hreorg]
  rw [Lists.latest_canonical, trailing.rdropWhile_of_neg fun entry _ => hall entry]
  simp [Lists.prune, hreorg, Lists.sweep]

theorem Represents.apply (hsep : Separate keys) (hrep : Represents keys storage lists) {call : PruneCall}
    (hadmits : storage.Admits keys call) : ∃ lists, Represents keys (storage.apply call) lists := by
  cases call with
  | append_batch_with_hash batch => exact ⟨_, hrep.append hsep hadmits⟩
  | rollback_deferred target_height => exact ⟨_, hrep.deferred hsep target_height⟩
  | prune_orphaned => exact ⟨_, hrep.pruned hsep⟩

theorem represents_of_run (hsep : Separate keys) {calls : List PruneCall}
    (hrun : transition.Trace (fun s call t => s.Admits keys call ∧ t = s.apply call) IndexerStorage.new calls
      storage) : ∃ lists, Represents keys storage lists := by
  refine hrun.invariant (fun storage => ∃ lists, Represents keys storage lists) ?_ ⟨_, represents_new keys⟩
  rintro s call t ⟨lists, hrep⟩ ⟨hadmits, rfl⟩
  exact hrep.apply hsep hadmits

/-- In every state reached a pruning leaves what is read of a key as it is exactly if it
    removes the entries that reads pass over, and no others. -/
theorem prune_invisible_iff (hsep : Separate keys) {calls : List PruneCall}
    (hrun : transition.Trace (fun s call t => s.Admits keys call ∧ t = s.apply call) IndexerStorage.new calls storage)
    {key : Bytes} (hkey : keys key) :
    (prune_orphaned storage).1.get_latest_canonical key = storage.get_latest_canonical key ↔
      PrunesWhatReadsSkip storage key := by
  obtain ⟨lists, hrep⟩ := represents_of_run hsep hrun
  unfold PrunesWhatReadsSkip
  cases hreorg : storage.reorg_height with
  | none => simp [prune_orphaned, hreorg]
  | some rh =>
    have hmarked : lists.reorg = some rh := hrep.reorg_height.symm.trans hreorg
    dsimp only
    rw [hrep.read_before hkey hmarked, hrep.read_after hsep hkey hmarked]
    constructor
    · exact .inr
    · rintro (hsame | hsame)
      · rw [hsame]
      · exact hsame

instance IndexerStorage.decidableAdmits (storage : IndexerStorage) : ∀ call, Decidable (storage.Admits letters call)
  | .append_batch_with_hash batch => inferInstanceAs (Decidable (Fits letters storage batch.pairs))
  | .rollback_deferred _ | .prune_orphaned => inferInstanceAs (Decidable True)

/-- A key is written at 10 and 20, and a block at 20 that replaces the second writes
    another one. -/
def forked_calls (key : Bytes) : List PruneCall := [
  .append_batch_with_hash ⟨[([0x61], [1])], 10, some [1, 0, 0, 0, 0, 0, 0, 0]⟩,
  .append_batch_with_hash ⟨[([0x61], [2])], 20, some [2, 0, 0, 0, 0, 0, 0, 0]⟩,
  .rollback_deferred 15,
  .append_batch_with_hash ⟨[(key, [3])], 20, some [3, 0, 0, 0, 0, 0, 0, 0]⟩]

/-- Where the new block writes the same key, its entry is last and canonical. -/
theorem prune_invisible_iff_rewritten : Separate letters ∧
    transition.Allowed (fun s call => s.Admits letters call) IndexerStorage.apply .new (forked_calls [0x61]) ∧
    (prune_orphaned ((forked_calls [0x61]).foldl IndexerStorage.apply .new)).1.get_latest_canonical [0x61] =
      ((forked_calls [0x61]).foldl IndexerStorage.apply .new).get_latest_canonical [0x61] := by
  have hallowed : transition.Allowed (fun s call => s.Admits letters call) IndexerStorage.apply .new
      (forked_calls [0x61]) := by decide +kernel
  refine ⟨separate_letters, hallowed, ?_⟩
  apply (prune_invisible_iff separate_letters hallowed.trace (by simp [letters])).mpr
  have hreorg : ((forked_calls [0x61]).foldl IndexerStorage.apply .new).reorg_height = some 16 := by decide +kernel
  have hnone : run_below (orphaned_at ((forked_calls [0x61]).foldl IndexerStorage.apply .new) 16 [0x61])
      (((forked_calls [0x61]).foldl IndexerStorage.apply .new).get_length [0x61]).toNat = 0 := by decide +kernel
  have hskip : run_below (replaced_at ((forked_calls [0x61]).foldl IndexerStorage.apply .new) 16 [0x61])
      (((forked_calls [0x61]).foldl IndexerStorage.apply .new).get_length [0x61]).toNat = 0 := by decide +kernel
  unfold PrunesWhatReadsSkip
  rw [hreorg]
  left
  rw [pruned_len, read_len, hnone, hskip, Nat.min_zero]

theorem exists_of_mem_prune_names {rh : UInt32} {key : Bytes} (hmem : key ∈ prune_names storage rh) :
    ∃ entry ∈ storage.db.entries, ∃ h, rh ≤ h ∧ entry.1 = height_keyset_key h ∧ key ∈ decode_key_set entry.2 := by
  obtain ⟨h, hh, hnamed⟩ := List.mem_flatMap.mp hmem
  cases hget : storage.get (height_keyset_key h) with
  | none =>
    rw [hget] at hnamed
    cases hnamed
  | some data =>
    rw [hget] at hnamed
    exact ⟨⟨_, data⟩, AList.mem_lookup_iff.mp hget, h, (mem_heights.mp hh).1, rfl, hnamed⟩

/-- The key set of 20 is that of the new block, so the discarded entry stays, and without
    the marker it is read again. -/
theorem prune_invisible_fails : Separate letters ∧
    transition.Trace (fun s call t => s.Admits letters call ∧ t = s.apply call) IndexerStorage.new
      (forked_calls [0x62]) ((forked_calls [0x62]).foldl IndexerStorage.apply .new) ∧
    ((forked_calls [0x62]).foldl IndexerStorage.apply .new).get_latest_canonical [0x61] = some [1] ∧
    (prune_orphaned ((forked_calls [0x62]).foldl IndexerStorage.apply .new)).1.get_latest_canonical [0x61] =
      some [2] := by
  have hrun : transition.Trace (fun s call t => s.Admits letters call ∧ t = s.apply call) IndexerStorage.new
      (forked_calls [0x62]) ((forked_calls [0x62]).foldl IndexerStorage.apply .new) :=
    transition.Allowed.trace (by decide +kernel)
  obtain ⟨lists, hrep⟩ := represents_of_run separate_letters hrun
  have hreorg : ((forked_calls [0x62]).foldl IndexerStorage.apply .new).reorg_height = some 16 := by decide +kernel
  refine ⟨separate_letters, hrun, by decide +kernel, ?_⟩
  rw [hrep.read_after separate_letters (by simp [letters]) (hrep.reorg_height.symm.trans hreorg)]
  have hunnamed : [0x61] ∉ prune_names ((forked_calls [0x62]).foldl IndexerStorage.apply .new) 16 := by
    intro hmem
    obtain ⟨entry, hentry, h, hle, hkey, hnamed⟩ := exists_of_mem_prune_names hmem
    have hcheck : ∀ entry ∈ ((forked_calls [0x62]).foldl IndexerStorage.apply .new).db.entries,
        [0x61] ∈ decode_key_set entry.2 → entry.1.length = 15 → from_le_bytes (entry.1.drop 11) < 16 := by
      decide +kernel
    have hlow := hcheck entry hentry hnamed (by rw [hkey]; simp [height_keyset_key, KEYSET_PREFIX])
    rw [hkey, height_keyset_key, List.drop_left' (show KEYSET_PREFIX.length = 11 from rfl),
      from_le_bytes_to_le_bytes] at hlow
    exact UInt32.not_le.mpr hlow hle
  have hlen : (((forked_calls [0x62]).foldl IndexerStorage.apply .new).get_length [0x61]).toNat = 2 := by
    decide +kernel
  rw [pruned_len, List.count_eq_zero.mpr hunnamed, Nat.zero_min, hlen]
  decide +kernel

end qubitcoin.indexer.storage
