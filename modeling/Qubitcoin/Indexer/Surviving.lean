import Qubitcoin.Indexer.Rollback
import Qubitcoin.Lib.Trace
import Qubitcoin.Lib.Collect

/-! Blocks that are appended and rolled back: the lists hold what the surviving blocks have
    written, as long as no rollback meets the key set of a block that is gone. -/

open qubitcoin.indexer.state

namespace qubitcoin.indexer.storage

/-- A storage with the blocks that have been appended and not rolled back since. -/
structure History where
  storage : IndexerStorage
  surviving : List Batch

def History.new : History := ⟨.new, []⟩

inductive Call where
  | append_batch_with_hash (batch : Batch)
  | rollback_to_height (target_height : UInt32)

def History.apply (self : History) : Call → History
  | .append_batch_with_hash batch =>
    ⟨self.storage.append_batch_with_hash batch.pairs batch.height batch.block_hash8, self.surviving ++ [batch]⟩
  | .rollback_to_height target_height =>
    ⟨(rollback_to_height self.storage target_height).1,
      self.surviving.filter fun batch => decide (batch.height ≤ target_height)⟩

/-- The values that blocks have written for a key, in order. -/
def written (batches : List Batch) (key : Bytes) : List Bytes := batches.flatMap fun batch => values batch.pairs key

/-- The lists of a storage are those of the surviving blocks. -/
def History.Exact (keys : Bytes → Prop) (self : History) : Prop :=
  ∀ key, keys key →
    (self.storage.get_length key).toNat = (written self.surviving key).length ∧
    (∀ i : Nat, i < (written self.surviving key).length →
      self.storage.get_at_index key (UInt32.ofNat i) = (written self.surviving key)[i]?) ∧
    self.storage.get_latest key = (written self.surviving key).getLast?

/-- The keys that a rollback finds in the key sets from the tip down to the first height
    that has none. -/
def rollback_names (storage : IndexerStorage) (target_height : UInt32) : List Bytes :=
  if storage.tip_height ≤ target_height then []
  else
    ((heights (target_height + 1) storage.tip_height).reverse.takeWhile fun h =>
      (storage.get (height_keyset_key h)).isSome).flatMap fun h =>
        ((storage.get (height_keyset_key h)).map decode_key_set).getD []

/-- A block is appended above those that survive. -/
def History.Admits (keys : Bytes → Prop) (self : History) : Call → Prop
  | .append_batch_with_hash batch =>
    Fits keys self.storage batch.pairs ∧ batch.pairs.length < 2 ^ 32 ∧
      ∀ old ∈ self.surviving, old.pairs ≠ [] → old.height < batch.height
  | .rollback_to_height _ => True

/-- A rollback finds a key that is to keep entries no more often than the blocks to be
    discarded have written it. -/
def History.Unstale (keys : Bytes → Prop) (self : History) : Call → Prop
  | .append_batch_with_hash _ => True
  | .rollback_to_height target_height =>
    ∀ key, keys key → (∃ old ∈ self.surviving, old.height ≤ target_height ∧ key ∈ old.names) →
      (rollback_names self.storage target_height).count key ≤
        (written (self.surviving.filter fun batch => decide (target_height < batch.height)) key).length

structure Lists.Surviving (keys : Bytes → Prop) (batches : List Batch) (lists : Lists) : Prop where
  list : ∀ key, keys key → lists.list key = batches.flatMap fun batch => batch.entries key
  keyset : ∀ batch ∈ batches, batch.pairs ≠ [] → lists.keyset batch.height = some batch.names
  tip : ∀ batch ∈ batches, batch.pairs ≠ [] → batch.height ≤ lists.tip
  increasing : batches.Pairwise fun a b => a.pairs ≠ [] → b.pairs ≠ [] → a.height < b.height

variable {keys : Bytes → Prop} {batches : List Batch} {lists : Lists}

theorem Batch.entries_of_empty {batch : Batch} (hempty : batch.pairs = []) (key : Bytes) : batch.entries key = [] := by
  simp [Batch.entries, values, hempty]

theorem Batch.height_of_mem_entries {batch : Batch} {key : Bytes} {entry : Entry} (hmem : entry ∈ batch.entries key) :
    entry.height = batch.height := by
  unfold Batch.entries at hmem
  obtain ⟨value, -, rfl⟩ := List.mem_map.mp hmem
  exact batch.record_height

theorem Batch.length_entries (batch : Batch) (key : Bytes) :
    (batch.entries key).length = batch.names.count key := by
  unfold Batch.entries Batch.names values
  rw [List.length_map]
  induction batch.pairs with
  | nil => rfl
  | cons pair pairs ih =>
    rw [List.filterMap_cons, List.map_cons, List.count_cons]
    by_cases hsame : pair.1 = key
    · simp [hsame, ih]
    · simp [hsame, ih]

theorem entries_split (key : Bytes) (target_height : UInt32)
    (hincreasing : batches.Pairwise fun a b => a.pairs ≠ [] → b.pairs ≠ [] → a.height < b.height) :
    (batches.flatMap fun batch => batch.entries key) =
      ((batches.filter fun batch => decide (batch.height ≤ target_height)).flatMap fun batch => batch.entries key) ++
      (batches.filter fun batch => decide (target_height < batch.height)).flatMap fun batch => batch.entries key := by
  induction batches with
  | nil => rfl
  | cons batch batches ih =>
    obtain ⟨hfirst, hrest⟩ := List.pairwise_cons.mp hincreasing
    rw [List.flatMap_cons, ih hrest, List.filter_cons, List.filter_cons]
    by_cases hle : batch.height ≤ target_height
    · have hnot : ¬ target_height < batch.height := UInt32.not_lt.mpr hle
      simp [hle, hnot]
    · have hlt : target_height < batch.height := UInt32.not_le.mp hle
      rw [if_neg (by simpa using hle), if_pos (by simpa using hlt)]
      by_cases hempty : batch.pairs = []
      · simp [Batch.entries_of_empty hempty]
      · -- every later block that writes is above the height too
        have hlow : ((batches.filter fun batch => decide (batch.height ≤ target_height)).flatMap fun batch =>
            batch.entries key) = [] := by
          rw [List.flatMap_eq_nil_iff]
          intro later hlater
          obtain ⟨hmem, hlow⟩ := List.mem_filter.mp hlater
          by_contra hne
          have hpairs : later.pairs ≠ [] := fun h => hne (Batch.entries_of_empty h key)
          have habove := UInt32.lt_trans hlt (hfirst later hmem hempty hpairs)
          exact UInt32.not_le.mpr habove (of_decide_eq_true hlow)
        rw [hlow]
        simp

theorem surviving_new (keys : Bytes → Prop) : Lists.empty.Surviving keys [] where
  list _ _ := rfl
  keyset _ h := by cases h
  tip _ h := by cases h
  increasing := .nil

theorem Lists.Surviving.append (hsurviving : lists.Surviving keys batches) {batch : Batch}
    (hsize : batch.pairs.length < 2 ^ 32)
    (habove : ∀ old ∈ batches, old.pairs ≠ [] → old.height < batch.height) :
    (lists.append batch).Surviving keys (batches ++ [batch]) := by
  have hincreasing : (batches ++ [batch]).Pairwise fun a b => a.pairs ≠ [] → b.pairs ≠ [] → a.height < b.height := by
    refine List.pairwise_append.mpr ⟨hsurviving.increasing, List.pairwise_singleton _ _, ?_⟩
    intro old hold new hnew hpairs _
    rw [List.mem_singleton.mp hnew]
    exact habove old hold hpairs
  unfold Lists.append
  by_cases hempty : batch.pairs = []
  · rw [hempty, List.isEmpty_nil, if_pos rfl]
    refine ⟨?_, ?_, ?_, hincreasing⟩
    · intro key hkey
      simp [hsurviving.list key hkey, Batch.entries_of_empty hempty]
    · intro old hold hpairs
      rcases List.mem_append.mp hold with hold | hold
      · exact hsurviving.keyset old hold hpairs
      · exact absurd (List.mem_singleton.mp hold ▸ hempty) hpairs
    · intro old hold hpairs
      rcases List.mem_append.mp hold with hold | hold
      · exact hsurviving.tip old hold hpairs
      · exact absurd (List.mem_singleton.mp hold ▸ hempty) hpairs
  · rw [if_neg (by simpa using hempty)]
    refine ⟨?_, ?_, ?_, hincreasing⟩
    · intro key hkey
      simp [hsurviving.list key hkey]
    · intro old hold hpairs
      rcases List.mem_append.mp hold with hold | hold
      · have hne : old.height ≠ batch.height := by
          intro heq
          exact UInt32.lt_irrefl _ (heq ▸ habove old hold hpairs)
        dsimp only
        rw [Function.update_of_ne hne]
        exact hsurviving.keyset old hold hpairs
      · rw [List.mem_singleton.mp hold]
        dsimp only
        rw [Function.update_self]
        have hcount : batch.names.length < 2 ^ 32 := by simpa [Batch.names] using hsize
        rw [Nat.mod_eq_of_lt hcount, List.take_length]
    · intro old hold hpairs
      rcases List.mem_append.mp hold with hold | hold
      · exact UInt32.le_of_lt (habove old hold hpairs)
      · rw [List.mem_singleton.mp hold]
        exact UInt32.le_refl _

theorem length_entries_le_count (key : Bytes) (hs : List UInt32)
    (hincreasing : batches.Pairwise fun a b => a.pairs ≠ [] → b.pairs ≠ [] → a.height < b.height)
    (hfound : ∀ batch ∈ batches, batch.pairs ≠ [] →
      batch.height ∈ hs ∧ lists.keyset batch.height = some batch.names) :
    (batches.flatMap fun batch => batch.entries key).length ≤ (lists.names hs).count key := by
  induction batches generalizing hs with
  | nil => simp
  | cons batch batches ih =>
    obtain ⟨hfirst, hrest⟩ := List.pairwise_cons.mp hincreasing
    rw [List.flatMap_cons, List.length_append]
    by_cases hempty : batch.pairs = []
    · rw [Batch.entries_of_empty hempty, List.length_nil, Nat.zero_add]
      exact ih hs hrest fun later hlater => hfound later (List.mem_cons_of_mem _ hlater)
    · obtain ⟨hmem, hkeyset⟩ := hfound batch List.mem_cons_self hempty
      have hcount : (lists.names hs).count key =
          batch.names.count key + (lists.names (hs.erase batch.height)).count key := by
        have hperm := (List.perm_cons_erase hmem).flatMap_right fun h => (lists.keyset h).getD []
        rw [Lists.names, hperm.count_eq, List.flatMap_cons, hkeyset, Option.getD_some, List.count_append]
        rfl
      rw [hcount, Batch.length_entries]
      apply Nat.add_le_add_left
      refine ih _ hrest ?_
      intro later hlater hpairs
      obtain ⟨hin, hnamed⟩ := hfound later (List.mem_cons_of_mem _ hlater) hpairs
      have hne : later.height ≠ batch.height := by
        intro heq
        exact UInt32.lt_irrefl _ (heq ▸ hfirst later hlater hempty hpairs)
      exact ⟨(List.mem_erase_of_ne hne).mpr hin, hnamed⟩

/-- What is left of a list of which the last entries are to go: as many as are named are
    removed, and when a height has no key set the scan removes the others. -/
theorem drop_high {low high : List Entry} {target_height : UInt32} {n : Nat} {found : Bool}
    (hlow : ∀ entry ∈ low, above target_height entry = false)
    (hhigh : ∀ entry ∈ high, above target_height entry = true) (hall : found = true → high.length ≤ n)
    (hsound : low ≠ [] → n ≤ high.length) :
    (if found then List.dropLast^[n] (low ++ high)
      else (List.dropLast^[n] (low ++ high)).rdropWhile (above target_height)) = low := by
  rw [trailing.iterate_dropLast]
  by_cases hempty : low = []
  · subst hempty
    rw [List.nil_append]
    split
    next hfound =>
      rw [Nat.sub_eq_zero_of_le (hall hfound), List.take_zero]
    next =>
      rw [List.rdropWhile_eq_nil_iff]
      exact fun entry hmem => hhigh entry (List.mem_of_mem_take hmem)
  · have hle := hsound hempty
    have htake : (low ++ high).take ((low ++ high).length - n) = low ++ high.take (high.length - n) := by
      rw [List.length_append, Nat.add_sub_assoc hle, List.take_length_add_append]
    rw [htake]
    split
    next hfound =>
      rw [Nat.sub_eq_zero_of_le (hall hfound), List.take_zero, List.append_nil]
    next =>
      rw [trailing.rdropWhile_append_of_pos fun entry hmem => hhigh entry (List.mem_of_mem_take hmem),
        trailing.rdropWhile_of_neg hlow]

theorem length_written (batches : List Batch) (key : Bytes) :
    (written batches key).length = (batches.flatMap fun batch => batch.entries key).length := by
  unfold written Batch.entries
  induction batches with
  | nil => rfl
  | cons batch batches ih => simp [ih]

theorem Lists.lt_of_mem_walked {target_height h : UInt32} (htip : target_height < lists.tip)
    (hmem : h ∈ lists.walked target_height) : target_height < h := by
  have hin := List.mem_reverse.mp ((List.takeWhile_prefix _).mem hmem)
  exact (succ_le_iff htip).mp (mem_heights.mp hin).1

theorem Lists.Surviving.rollback_list (hsurviving : lists.Surviving keys batches) {target_height : UInt32}
    (htip : target_height < lists.tip) {key : Bytes} (hkey : keys key)
    (hsound : (∃ old ∈ batches, old.height ≤ target_height ∧ key ∈ old.names) →
      (lists.names (lists.walked target_height)).count key ≤
        (written (batches.filter fun batch => decide (target_height < batch.height)) key).length) :
    (lists.rollback target_height).list key =
      (batches.filter fun batch => decide (batch.height ≤ target_height)).flatMap fun batch => batch.entries key := by
  have hsplit := entries_split key target_height hsurviving.increasing
  rw [length_written] at hsound
  rw [← hsurviving.list key hkey] at hsplit
  generalize hlow : ((batches.filter fun batch => decide (batch.height ≤ target_height)).flatMap fun batch =>
    batch.entries key) = low at hsplit
  generalize hhigh : ((batches.filter fun batch => decide (target_height < batch.height)).flatMap fun batch =>
    batch.entries key) = high at hsplit hsound
  have hdropped := @drop_high low high target_height ((lists.names (lists.walked target_height)).count key)
    ((heights (target_height + 1) lists.tip).all fun h => (lists.keyset h).isSome) ?_ ?_ ?_ ?_
  · unfold Lists.rollback
    rw [if_neg (UInt32.not_le.mpr htip)]
    dsimp only
    rw [← hdropped, ← hsplit]
    split <;> rfl
  · intro entry hmem
    rw [← hlow] at hmem
    obtain ⟨batch, hbatch, hentry⟩ := List.mem_flatMap.mp hmem
    have hle := of_decide_eq_true (List.mem_filter.mp hbatch).2
    rw [above, Batch.height_of_mem_entries hentry]
    exact decide_eq_false (UInt32.not_lt.mpr hle)
  · intro entry hmem
    rw [← hhigh] at hmem
    obtain ⟨batch, hbatch, hentry⟩ := List.mem_flatMap.mp hmem
    rw [above, Batch.height_of_mem_entries hentry]
    exact (List.mem_filter.mp hbatch).2
  · -- every height from the target to the tip is walked
    intro hall
    rw [← hhigh]
    refine length_entries_le_count key _ (hsurviving.increasing.filter _) ?_
    intro batch hbatch hpairs
    obtain ⟨hmem, hlt⟩ := List.mem_filter.mp hbatch
    refine ⟨?_, hsurviving.keyset batch hmem hpairs⟩
    unfold Lists.walked
    rw [List.takeWhile_eq_self_iff.mpr]
    · rw [List.mem_reverse, mem_heights, succ_le_iff htip]
      exact ⟨of_decide_eq_true hlt, hsurviving.tip batch hmem hpairs⟩
    · intro h hmem
      exact List.all_eq_true.mp hall h (List.mem_reverse.mp hmem)
  · intro hne
    apply hsound
    obtain ⟨entry, hmem⟩ := List.exists_mem_of_ne_nil _ hne
    rw [← hlow] at hmem
    obtain ⟨batch, hbatch, hentry⟩ := List.mem_flatMap.mp hmem
    obtain ⟨hold, hle⟩ := List.mem_filter.mp hbatch
    refine ⟨batch, hold, of_decide_eq_true hle, ?_⟩
    rw [← List.count_pos_iff, ← Batch.length_entries]
    exact List.length_pos_of_mem hentry

theorem Lists.Surviving.rollback (hsurviving : lists.Surviving keys batches) (target_height : UInt32)
    (hsound : target_height < lists.tip → ∀ key, keys key →
      (∃ old ∈ batches, old.height ≤ target_height ∧ key ∈ old.names) →
      (lists.names (lists.walked target_height)).count key ≤
        (written (batches.filter fun batch => decide (target_height < batch.height)) key).length) :
    (lists.rollback target_height).Surviving keys
      (batches.filter fun batch => decide (batch.height ≤ target_height)) := by
  have hkept {batch : Batch} (hmem : batch ∈ batches.filter fun batch => decide (batch.height ≤ target_height)) :
      batch ∈ batches ∧ batch.height ≤ target_height :=
    ⟨(List.mem_filter.mp hmem).1, of_decide_eq_true (List.mem_filter.mp hmem).2⟩
  have hincreasing := hsurviving.increasing.filter fun batch => decide (batch.height ≤ target_height)
  by_cases htip : target_height < lists.tip
  · refine ⟨fun key hkey => hsurviving.rollback_list htip hkey (hsound htip key hkey), ?_, ?_, hincreasing⟩
    · intro batch hmem hpairs
      obtain ⟨hmem, hle⟩ := hkept hmem
      have hnot : batch.height ∉ lists.walked target_height := fun hin =>
        UInt32.not_lt.mpr hle (Lists.lt_of_mem_walked htip hin)
      have hsame : (lists.rollback target_height).keyset batch.height = lists.keyset batch.height := by
        unfold Lists.rollback
        rw [if_neg (UInt32.not_le.mpr htip)]
        dsimp only
        split <;> simp [Lists.sweep, hnot]
      rw [hsame]
      exact hsurviving.keyset batch hmem hpairs
    · intro batch hmem hpairs
      have hsame : (lists.rollback target_height).tip = target_height := by
        unfold Lists.rollback
        rw [if_neg (UInt32.not_le.mpr htip)]
        dsimp only
        split <;> rfl
      rw [hsame]
      exact (hkept hmem).2
  · -- no block lies above the tip
    have hle := UInt32.not_lt.mp htip
    unfold Lists.rollback
    rw [if_pos hle]
    refine ⟨?_, fun batch hmem => hsurviving.keyset batch (hkept hmem).1, fun batch hmem _ => (hkept hmem).2,
      hincreasing⟩
    intro key hkey
    have hsplit := entries_split key target_height hsurviving.increasing
    have hnone : ((batches.filter fun batch => decide (target_height < batch.height)).flatMap fun batch =>
        batch.entries key) = [] := by
      rw [List.flatMap_eq_nil_iff]
      intro batch hbatch
      obtain ⟨hmem, hlt⟩ := List.mem_filter.mp hbatch
      apply Batch.entries_of_empty
      by_contra hpairs
      exact htip (UInt32.lt_of_lt_of_le (of_decide_eq_true hlt) (hsurviving.tip batch hmem hpairs))
    rw [hnone, List.append_nil] at hsplit
    exact (hsurviving.list key hkey).trans hsplit

/-- The storage holds lists that look like those of the surviving blocks. -/
def History.Kept (keys : Bytes → Prop) (self : History) : Prop :=
  ∃ lists, Represents keys self.storage lists ∧ lists.Surviving keys self.surviving

theorem Represents.found_names {storage : IndexerStorage} (hrep : Represents keys storage lists)
    {target_height : UInt32} (htip : target_height < lists.tip) :
    rollback_names storage target_height = lists.names (lists.walked target_height) := by
  have hisSome : (fun h => (storage.get (height_keyset_key h)).isSome) = fun h => (lists.keyset h).isSome := by
    funext h
    rw [← hrep.get_keyset, Option.isSome_map]
  have hnames : (fun h => ((storage.get (height_keyset_key h)).map decode_key_set).getD []) =
      fun h => (lists.keyset h).getD [] := by
    funext h
    rw [hrep.get_keyset]
  unfold rollback_names Lists.names Lists.walked
  rw [hrep.tip_height, if_neg (UInt32.not_le.mpr htip), hisSome, hnames]

theorem History.Kept.apply (hsep : Separate keys) {history : History} (hkept : history.Kept keys) {call : Call}
    (hadmits : history.Admits keys call) (hunstale : history.Unstale keys call) :
    (history.apply call).Kept keys := by
  obtain ⟨lists, hrep, hsurviving⟩ := hkept
  cases call with
  | append_batch_with_hash batch =>
    obtain ⟨hfits, hsize, habove⟩ := hadmits
    exact ⟨_, hrep.append hsep hfits, hsurviving.append hsize habove⟩
  | rollback_to_height target_height =>
    refine ⟨_, hrep.rolled_back hsep target_height, hsurviving.rollback target_height ?_⟩
    intro htip key hkey hold
    rw [← hrep.found_names htip]
    exact hunstale key hkey hold

theorem History.Kept.exact {history : History} (hkept : history.Kept keys) : history.Exact keys := by
  obtain ⟨lists, hrep, hsurviving⟩ := hkept
  intro key hkey
  have hwritten : written history.surviving key = (lists.list key).map Entry.value := by
    rw [hsurviving.list key hkey, List.map_flatMap]
    simp [written, Batch.entries, Function.comp_def]
  rw [hwritten, List.length_map]
  refine ⟨hrep.get_length hkey, ?_, ?_⟩
  · intro i hi
    rw [List.getElem?_map, List.getElem?_eq_getElem hi, Option.map_some]
    exact hrep.get_index hkey (List.getElem?_eq_getElem hi)
  · rw [hrep.get_latest hkey, List.getLast?_map]

/-- After every call the list of a key holds what the surviving blocks have written for it,
    in every run in which no rollback meets a stale key set. -/
theorem rollback_exact (hsep : Separate keys) {calls : List Call} {history : History}
    (hrun : transition.Trace (fun s call t => (s.Admits keys call ∧ s.Unstale keys call) ∧ t = s.apply call)
      History.new calls history) : history.Exact keys := by
  apply History.Kept.exact
  refine hrun.invariant (History.Kept keys) ?_ ⟨Lists.empty, represents_new keys, surviving_new keys⟩
  rintro s call t hkept ⟨⟨hadmits, hunstale⟩, rfl⟩
  exact hkept.apply hsep hadmits hunstale

def letters (key : Bytes) : Prop := key ∈ [[0x61], [0x62], [0x63]]

theorem separate_letters : Separate letters := by
  apply Separate.of_short
  unfold letters
  decide

instance Fits.decidable (storage : IndexerStorage) (pairs : List (Bytes × Bytes)) : Decidable (Fits letters storage pairs) :=
  decidable_of_iff
    ((∀ pair ∈ pairs, pair.1 ∈ [[0x61], [0x62], [0x63]]) ∧
      ∀ key ∈ [[0x61], [0x62], [0x63]], (storage.get_length key).toNat + (values pairs key).length < 2 ^ 32)
    ⟨fun h => ⟨h.1, h.2⟩, fun h => ⟨h.logical, h.room⟩⟩

instance History.decidableAdmits (history : History) : ∀ call, Decidable (history.Admits letters call)
  | .append_batch_with_hash batch => inferInstanceAs (Decidable
      (Fits letters history.storage batch.pairs ∧ batch.pairs.length < 2 ^ 32 ∧
        ∀ old ∈ history.surviving, old.pairs ≠ [] → old.height < batch.height))
  | .rollback_to_height _ => inferInstanceAs (Decidable True)

instance History.decidableUnstale (history : History) : ∀ call, Decidable (history.Unstale letters call)
  | .append_batch_with_hash _ => inferInstanceAs (Decidable True)
  | .rollback_to_height target_height => inferInstanceAs (Decidable
      (∀ key ∈ [[0x61], [0x62], [0x63]],
        (∃ old ∈ history.surviving, old.height ≤ target_height ∧ key ∈ old.names) →
        (rollback_names history.storage target_height).count key ≤
          (written (history.surviving.filter fun batch => decide (target_height < batch.height)) key).length))

/-- Blocks at 1, 2 and 4 write the keys, a rollback to 1 and a new block at 2. -/
def plain_calls : List Call := [
  .append_batch_with_hash ⟨[([0x61], [1])], 1, none⟩,
  .append_batch_with_hash ⟨[([0x61], [2]), ([0x62], [3])], 2, none⟩,
  .append_batch_with_hash ⟨[([0x61], [4])], 4, none⟩,
  .rollback_to_height 1,
  .append_batch_with_hash ⟨[([0x62], [5])], 2, none⟩]

theorem rollback_exact_plain : Separate letters ∧ (plain_calls.foldl History.apply .new).Exact letters :=
  ⟨separate_letters, rollback_exact separate_letters (transition.Allowed.trace
    (show transition.Allowed (fun s call => s.Admits letters call ∧ s.Unstale letters call) History.apply .new
      plain_calls by decide +kernel))⟩

/-- The first rollback finds no key set at 3 and leaves that of 2 behind; the second one
    meets it. -/
def stale_calls : List Call := [
  .append_batch_with_hash ⟨[([0x61], [1])], 1, none⟩,
  .append_batch_with_hash ⟨[([0x61], [2])], 2, none⟩,
  .append_batch_with_hash ⟨[([0x63], [3])], 4, none⟩,
  .rollback_to_height 1,
  .append_batch_with_hash ⟨[([0x62], [4])], 3, none⟩,
  .rollback_to_height 1]

/-- The value of the block at 1, which survives, is lost. -/
theorem rollback_exact_fails : Separate letters ∧
    transition.Trace (fun s call t => s.Admits letters call ∧ t = s.apply call) History.new stale_calls
      (stale_calls.foldl History.apply .new) ∧
    ¬ (stale_calls.foldl History.apply .new).Exact letters := by
  refine ⟨separate_letters, transition.Allowed.trace ?_, ?_⟩
  · decide +kernel
  · intro hexact
    obtain ⟨-, -, hlatest⟩ := hexact [0x61] (by simp [letters])
    have hnone : (stale_calls.foldl History.apply .new).storage.get_latest [0x61] = none := by decide +kernel
    have hsome : (written (stale_calls.foldl History.apply .new).surviving [0x61]).getLast? = some [1] := by
      decide +kernel
    rw [hnone, hsome] at hlatest
    cases hlatest

end qubitcoin.indexer.storage
