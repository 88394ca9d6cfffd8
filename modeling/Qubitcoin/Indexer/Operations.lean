import Qubitcoin.Indexer.Lists

/-! The operations of a storage as operations on lists. -/

open qubitcoin.indexer.state

namespace qubitcoin.indexer.storage

variable {keys : Bytes → Prop} {storage : IndexerStorage} {lists : Lists}

/-- What a block writes. -/
structure Batch where
  pairs : List (Bytes × Bytes)
  height : UInt32
  block_hash8 : Option Bytes
  deriving DecidableEq

/-- The values that are written for a key. -/
def values (pairs : List (Bytes × Bytes)) (key : Bytes) : List Bytes :=
  pairs.filterMap fun pair => if pair.1 = key then some pair.2 else none

/-- The keys that are written, each as often as it is. -/
def Batch.names (self : Batch) : List Bytes := self.pairs.map Prod.fst

/-- The start of the hash, where it is long enough to be used. -/
def Batch.leading_hash (self : Batch) : Option Bytes :=
  match self.block_hash8 with
  | some hash => if 8 ≤ hash.length then some (hash.take 8) else none
  | none => none

def Batch.record (self : Batch) : Bytes := height_record self.height self.block_hash8

def Batch.entries (self : Batch) (key : Bytes) : List Entry :=
  (values self.pairs key).map fun value => ⟨value, self.record⟩

theorem Batch.record_eq (self : Batch) : self.record = to_le_bytes self.height ++ self.leading_hash.getD [] := by
  unfold Batch.record height_record Batch.leading_hash
  cases self.block_hash8 with
  | none => simp
  | some hash =>
    dsimp only
    split <;> simp

theorem Batch.record_height (self : Batch) : from_le_bytes self.record = self.height := by
  rw [self.record_eq, from_le_bytes_append]

theorem Batch.four_le_record (self : Batch) : 4 ≤ self.record.length := by simp [self.record_eq]

theorem values_cons (pair : Bytes × Bytes) (pairs : List (Bytes × Bytes)) (key : Bytes) :
    values (pair :: pairs) key = (if pair.1 = key then [pair.2] else []) ++ values pairs key := by
  unfold values
  rw [List.filterMap_cons]
  split <;> simp_all

def Lists.append (self : Lists) (batch : Batch) : Lists :=
  if batch.pairs.isEmpty then self
  else
    { self with
      list := fun key => self.list key ++ batch.entries key
      keyset := Function.update self.keyset batch.height (some (batch.names.take (batch.names.length % 2 ^ 32)))
      hash := if batch.leading_hash.isSome then Function.update self.hash batch.height batch.leading_hash else self.hash
      tip := batch.height }

/-- A block can be appended: it writes logical keys, and no list outgrows `u32::MAX`. -/
structure Fits (keys : Bytes → Prop) (storage : IndexerStorage) (pairs : List (Bytes × Bytes)) : Prop where
  logical : ∀ pair ∈ pairs, keys pair.1
  room : ∀ key, keys key → (storage.get_length key).toNat + (values pairs key).length < 2 ^ 32

theorem Pending.Stands.append_all (hsep : Separate keys) {pending : Pending} (record : Bytes)
    (hdated : 4 ≤ record.length) (pairs : List (Bytes × Bytes)) (hlogical : ∀ pair ∈ pairs, keys pair.1)
    (hroom : ∀ key, keys key → (lists.list key).length + (values pairs key).length < 2 ^ 32)
    (hstands : pending.Stands keys storage lists) :
    (pairs.foldl (Pending.append storage record) pending).Stands keys storage
      { lists with list := fun key => lists.list key ++ (values pairs key).map fun value => ⟨value, record⟩ } := by
  induction pairs generalizing pending lists with
  | nil => simpa [values] using hstands
  | cons pair pairs ih =>
    have hkey := hlogical pair List.mem_cons_self
    have hone := hroom pair.1 hkey
    rw [values_cons, if_pos rfl, List.length_append, List.length_singleton] at hone
    have hnext := hstands.append hsep record hdated hkey (by omega)
    have hrest := ih (fun pair hpair => hlogical pair (List.mem_cons_of_mem _ hpair)) (by
      intro key hkey'
      have hlen := hroom key hkey'
      rw [values_cons, List.length_append] at hlen
      by_cases hsame : pair.1 = key
      · subst hsame
        simp [Lists.push] at hlen ⊢
        omega
      · simpa [Lists.push, Ne.symm hsame, hsame] using hlen) hnext
    rw [List.foldl_cons]
    convert hrest using 1
    simp only [Lists.push, Lists.mk.injEq, and_self, and_true]
    funext key
    rw [values_cons]
    by_cases hsame : pair.1 = key
    · subst hsame
      simp
    · simp [hsame, Ne.symm hsame]

theorem Represents.append (hsep : Separate keys) (hrep : Represents keys storage lists) {batch : Batch}
    (hfits : Fits keys storage batch.pairs) :
    Represents keys (storage.append_batch_with_hash batch.pairs batch.height batch.block_hash8)
      (lists.append batch) := by
  unfold IndexerStorage.append_batch_with_hash Lists.append
  split
  next => exact hrep
  next =>
    have hloop := hrep.stands.append_all hsep batch.record batch.four_le_record batch.pairs hfits.logical
      fun key hkey => hrep.get_length hkey ▸ hfits.room key hkey
    have hkeyset := hloop.represents.put_keyset hsep batch.height (show ∀ key ∈ batch.names, keys key by
      intro key hkey
      obtain ⟨pair, hpair, rfl⟩ := List.mem_map.mp hkey
      exact hfits.logical pair hpair)
    dsimp only
    rw [IndexerStorage.write_raw_batch_append, IndexerStorage.write_raw_batch_append,
      IndexerStorage.write_raw_batch_append]
    obtain ⟨pairs, height, block_hash8⟩ := batch
    cases block_hash8 with
    | none => exact hkeyset.put_tip hsep height
    | some hash =>
      by_cases hlong : 8 ≤ hash.length
      · simp only [Batch.leading_hash, if_pos hlong]
        exact (hkeyset.put_hash hsep height _).put_tip hsep height
      · simp only [Batch.leading_hash, if_neg hlong]
        exact hkeyset.put_tip hsep height

theorem toNat_pred {len : UInt32} (hzero : len ≠ 0) : (len - 1).toNat + 1 = len.toNat := by
  have hpos : len.toNat ≠ 0 := fun h => hzero (UInt32.toNat_inj.mp h)
  have hle : (1 : UInt32) ≤ len := UInt32.le_iff_toNat_le.mpr (Nat.one_le_iff_ne_zero.mpr hpos)
  rw [UInt32.toNat_sub_of_le _ _ hle]
  exact Nat.sub_add_cancel (Nat.one_le_iff_ne_zero.mpr hpos)

theorem Represents.get_last (hrep : Represents keys storage lists) {key : Bytes} (hkey : keys key) {len : UInt32}
    (hlength : len.toNat = (lists.list key).length) (hzero : len ≠ 0) :
    storage.get_at_index key (len - 1) = (lists.list key).getLast?.map Entry.value := by
  have hpred := toNat_pred hzero
  have hlt : (len - 1).toNat < (lists.list key).length := by omega
  have hlast : (lists.list key).getLast? = some (lists.list key)[(len - 1).toNat] := by
    rw [List.getLast?_eq_getElem?, ← hlength, ← hpred, Nat.add_sub_cancel]
    exact List.getElem?_eq_getElem hlt
  have hget := hrep.get_index hkey (List.getElem?_eq_getElem hlt)
  rw [UInt32.ofNat_toNat] at hget
  rw [hget, hlast, Option.map_some]

theorem Represents.get_latest (hrep : Represents keys storage lists) {key : Bytes} (hkey : keys key) :
    storage.get_latest key = (lists.list key).getLast?.map Entry.value := by
  have hlength := hrep.get_length hkey
  unfold IndexerStorage.get_length at hlength
  unfold IndexerStorage.get_latest
  cases hread : storage.get_u32 (length_key key) with
  | none =>
    rw [hread] at hlength
    have hnil : lists.list key = [] := List.length_eq_zero_iff.mp hlength.symm
    simp [hnil]
  | some len =>
    rw [hread, Option.getD_some] at hlength
    dsimp only
    split
    next hzero =>
      have hnil : lists.list key = [] := List.length_eq_zero_iff.mp (by rw [← hlength, hzero]; rfl)
      simp [hnil]
    next hzero => exact hrep.get_last hkey hlength hzero

/-- The block of an entry is known to have been replaced. -/
def Lists.replaced (self : Lists) (entry : Entry) : Bool :=
  match self.reorg with
  | none => false
  | some rh =>
    decide (rh ≤ entry.height) && decide (12 ≤ entry.record.length) &&
      match self.hash entry.height with
      | some canonical => !decide (8 ≤ canonical.length ∧ canonical.take 8 = (entry.record.drop 4).take 8)
      | none => false

def Lists.latest_canonical (self : Lists) (key : Bytes) : Option Bytes :=
  ((self.list key).rdropWhile self.replaced).getLast?.map Entry.value

theorem Represents.latest_canonical_below (hrep : Represents keys storage lists) {key : Bytes} (hkey : keys key)
    {rh : UInt32} (hreorg : lists.reorg = some rh) (n : Nat) (hn : n ≤ (lists.list key).length) :
    storage.latest_canonical_below key rh n =
      (((lists.list key).take n).rdropWhile lists.replaced).getLast?.map Entry.value := by
  induction n with
  | zero => simp [IndexerStorage.latest_canonical_below]
  | succ n ih =>
    have hentry := List.getElem?_eq_getElem (show n < (lists.list key).length by omega)
    generalize (lists.list key)[n] = entry at hentry
    have hdated := hrep.dated key hkey entry (List.mem_of_getElem? hentry)
    have hvalue : storage.get_at_index key (UInt32.ofNat n) =
        ((lists.list key).take n ++ [entry]).getLast?.map Entry.value := by simp [hrep.get_index hkey hentry]
    unfold IndexerStorage.latest_canonical_below
    dsimp only
    rw [List.take_add_one, hentry, Option.toList_some, List.rdropWhile_concat, hrep.get_entry_height hkey hentry]
    dsimp only
    rw [if_pos hdated, hrep.get_canonical_hash, hvalue, ih (by omega)]
    have hreplaced : lists.replaced entry =
        (decide (rh ≤ from_le_bytes entry.record) && decide (12 ≤ entry.record.length) &&
          match lists.hash (from_le_bytes entry.record) with
          | some canonical => !decide (8 ≤ canonical.length ∧ canonical.take 8 = (entry.record.drop 4).take 8)
          | none => false) := by
      unfold Lists.replaced
      rw [hreorg]
      rfl
    rw [hreplaced]
    split
    next hlt => simp [UInt32.not_le.mpr hlt]
    next hge =>
      rw [UInt32.not_lt] at hge
      split
      next hlong =>
        cases lists.hash (from_le_bytes entry.record) with
        | none => simp
        | some canonical =>
          dsimp only
          split
          next heq => simp [heq]
          next hne => simp [hge, hlong, hne]
      next hshort => simp [hshort]

theorem Represents.get_latest_canonical (hrep : Represents keys storage lists) {key : Bytes} (hkey : keys key) :
    storage.get_latest_canonical key = lists.latest_canonical key := by
  have hlength := hrep.get_length hkey
  unfold IndexerStorage.get_latest_canonical Lists.latest_canonical
  dsimp only
  split
  next hzero =>
    have hnil : lists.list key = [] := List.length_eq_zero_iff.mp (by rw [← hlength, hzero]; rfl)
    simp [hnil]
  next hzero =>
    rw [hrep.reorg_height]
    cases hreorg : lists.reorg with
    | none =>
      have hnone (entry : Entry) : lists.replaced entry = false := by simp [Lists.replaced, hreorg]
      rw [List.rdropWhile_eq_self_iff.mpr fun _ => by simp [hnone]]
      exact hrep.get_last hkey hlength hzero
    | some rh =>
      dsimp only
      rw [hrep.latest_canonical_below hkey hreorg _ hlength.le, hlength, List.take_length]

theorem mem_heights {first last h : UInt32} : h ∈ heights first last ↔ first ≤ h ∧ h ≤ last := by
  simp only [heights, List.mem_map, List.mem_range'_1, UInt32.le_iff_toNat_le]
  constructor
  · rintro ⟨n, hn, rfl⟩
    have := last.toNat_lt
    rw [UInt32.toNat_ofNat_of_lt' (show n < 2 ^ 32 by omega)]
    omega
  · intro h
    refine ⟨_, ?_, UInt32.ofNat_toNat⟩
    omega

theorem succ_le_iff {first last h : UInt32} (hlt : first < last) : first + 1 ≤ h ↔ first < h := by
  rw [UInt32.lt_iff_toNat_lt] at hlt
  have hlast := last.toNat_lt
  rw [UInt32.le_iff_toNat_le, UInt32.lt_iff_toNat_lt, UInt32.toNat_add]
  rw [show (1 : UInt32).toNat = 1 from rfl, Nat.mod_eq_of_lt (by omega)]
  rfl

def Lists.rollback_deferred (self : Lists) (target_height : UInt32) : Lists :=
  if self.tip ≤ target_height then self
  else
    { self with
      reorg := some ((self.reorg.map fun existing => min existing (target_height + 1)).getD (target_height + 1))
      hash := fun h => if target_height < h ∧ h ≤ self.tip then none else self.hash h
      tip := target_height }

theorem Represents.delete_hashes (hsep : Separate keys) (hrep : Represents keys storage lists) (hs : List UInt32) :
    Represents keys (storage.write_raw_batch (hs.map fun h => .delete (height_to_hash_key h)))
      { lists with hash := fun h => if h ∈ hs then none else lists.hash h } := by
  induction hs generalizing storage lists with
  | nil => simpa [IndexerStorage.write_raw_batch] using hrep
  | cons h hs ih =>
    have hrest := ih (hrep.delete_hash hsep h)
    rw [List.map_cons, ← List.singleton_append, IndexerStorage.write_raw_batch_append]
    convert hrest using 1
    simp only [Lists.with_hash, Lists.mk.injEq, true_and, and_true]
    funext h'
    by_cases hsame : h' = h
    · simp [hsame]
    · simp [hsame]

theorem Represents.deferred (hsep : Separate keys) (hrep : Represents keys storage lists) (target_height : UInt32) :
    Represents keys (rollback_deferred storage target_height).1 (lists.rollback_deferred target_height) := by
  unfold rollback_deferred Lists.rollback_deferred
  dsimp only
  rw [hrep.tip_height, hrep.reorg_height]
  split
  next => exact hrep
  next habove =>
    rw [UInt32.not_le] at habove
    have hmarked := hrep.put_reorg hsep
      ((lists.reorg.map fun existing => min existing (target_height + 1)).getD (target_height + 1))
    have hdone := (hmarked.delete_hashes hsep (heights (target_height + 1) lists.tip)).put_tip hsep target_height
    rw [← IndexerStorage.write_raw_batch_append, ← IndexerStorage.write_raw_batch_append,
      ← List.append_assoc] at hdone
    convert hdone using 1
    simp only [Lists.mk.injEq, true_and, and_true]
    funext h
    simp only [mem_heights, succ_le_iff habove]

/-- The keys that the key sets of some heights name. -/
def Lists.names (self : Lists) (hs : List UInt32) : List Bytes := hs.flatMap fun h => (self.keyset h).getD []

/-- Each key is treated as often as the key sets of some heights name it, and the key sets
    are removed. -/
def Lists.sweep (self : Lists) (f : List Entry → List Entry) (hs : List UInt32) : Lists :=
  { self with
    list := fun key => f^[(self.names hs).count key] (self.list key)
    keyset := fun h => if h ∈ hs then none else self.keyset h }

def Lists.treat (self : Lists) (f : List Entry → List Entry) (key : Bytes) : Lists :=
  { self with list := Function.update self.list key (f (self.list key)) }

theorem Lists.treat_all (self : Lists) (f : List Entry → List Entry) (named : List Bytes) :
    named.foldl (fun lists key => lists.treat f key) self =
      { self with list := fun key => f^[named.count key] (self.list key) } := by
  induction named generalizing self with
  | nil => rfl
  | cons key named ih =>
    rw [List.foldl_cons, ih]
    simp only [Lists.treat, Lists.mk.injEq, and_self, and_true]
    funext query
    by_cases hsame : query = key
    · subst hsame
      rw [Function.update_self, List.count_cons_self, Function.iterate_succ_apply]
    · rw [Function.update_of_ne hsame, List.count_cons_of_ne (Ne.symm hsame)]

theorem Lists.sweep_nil (self : Lists) (f : List Entry → List Entry) : self.sweep f [] = self := by
  simp [Lists.sweep, Lists.names]

theorem Lists.sweep_concat (self : Lists) (f : List Entry → List Entry) (hs : List UInt32) (h : UInt32) :
    self.sweep f (hs ++ [h]) =
      (((self.keyset h).getD []).foldl (fun lists key => lists.treat f key) (self.sweep f hs)).with_keyset h none := by
  rw [Lists.treat_all]
  simp only [Lists.sweep, Lists.with_keyset, Lists.names, Lists.mk.injEq, and_self, and_true]
  refine ⟨?_, ?_⟩
  · funext key
    rw [List.flatMap_append, List.count_append, List.flatMap_singleton, Nat.add_comm, Function.iterate_add_apply]
  · funext h'
    by_cases hsame : h' = h
    · simp [hsame]
    · simp [hsame]

theorem Lists.sweep_concat_none (self : Lists) (f : List Entry → List Entry) (hs : List UInt32) {h : UInt32}
    (hnone : self.keyset h = none) : self.sweep f (hs ++ [h]) = self.sweep f hs := by
  simp only [Lists.sweep, Lists.names, Lists.mk.injEq, and_self, and_true]
  refine ⟨?_, ?_⟩
  · funext key
    rw [List.flatMap_append, List.flatMap_singleton, hnone, Option.getD_none, List.append_nil]
  · funext h'
    by_cases hsame : h' = h
    · simp [hsame, hnone]
    · simp [hsame]

theorem Lists.sweep_list_shortens (self : Lists) {f : List Entry → List Entry} (hf : ∀ l, f l <+: l) (hs : List UInt32)
    (key : Bytes) : (self.sweep f hs).list key <+: self.list key := by
  simp only [Lists.sweep]
  generalize (self.names hs).count key = n
  induction n with
  | zero => exact List.prefix_refl _
  | succ n ih =>
    rw [Function.iterate_succ_apply']
    exact (hf _).trans ih

/-- An entry that pruning takes for orphaned. -/
def Lists.orphaned (self : Lists) (rh : UInt32) (entry : Entry) : Bool :=
  decide (rh ≤ entry.height) && decide (12 ≤ entry.record.length) &&
    match self.hash entry.height with
    | some canonical => !decide (8 ≤ canonical.length ∧ canonical.take 8 = (entry.record.drop 4).take 8)
    | none => true

/-- Remove the last entry if it is orphaned. -/
def trim (p : Entry → Bool) (list : List Entry) : List Entry :=
  if list.getLast?.any p then list.dropLast else list

theorem trim_shortens (p : Entry → Bool) (list : List Entry) : trim p list <+: list := by
  unfold trim
  split
  · exact List.dropLast_prefix list
  · exact List.prefix_refl list

theorem Represents.orphaned_iff (hrep : Represents keys storage lists) (rh : UInt32) (entry : Entry) :
    lists.orphaned rh entry = true ↔ rh ≤ entry.height ∧ is_canonical storage entry.record = false := by
  have hcanonical : is_canonical storage entry.record =
      if 12 ≤ entry.record.length then
        match lists.hash entry.height with
        | some ch => decide (8 ≤ ch.length ∧ ch.take 8 = (entry.record.drop 4).take 8)
        | none => false
      else true := by
    unfold is_canonical
    rw [hrep.get_canonical_hash]
    rfl
  rw [hcanonical]
  unfold Lists.orphaned
  by_cases hlong : 12 ≤ entry.record.length
  · cases lists.hash entry.height with
    | none => simp [hlong]
    | some canonical => simp only [hlong, decide_true, Bool.and_true, Bool.and_eq_true, decide_eq_true_eq,
        Bool.not_eq_true', if_true]
  · simp [hlong]

theorem Pending.Stands.prune_key (hsep : Separate keys) (hrep : Represents keys storage lists) {rh : UInt32}
    {removal : Removal} {current : Lists} (hstands : removal.toPending.Stands keys storage current) {key : Bytes}
    (hkey : keys key) (hinitial : current.list key <+: lists.list key) :
    (removal.prune_key storage rh key).toPending.Stands keys storage
      (current.treat (trim (lists.orphaned rh)) key) := by
  have hlength := hstands.current_len key hkey
  have hsame (hno : (current.list key).getLast?.any (lists.orphaned rh) = false) :
      current.treat (trim (lists.orphaned rh)) key = current := by
    simp [Lists.treat, trim, hno]
  unfold Removal.prune_key
  dsimp only
  split
  next hzero =>
    have hnil : current.list key = [] := List.length_eq_zero_iff.mp (by rw [← hlength, hzero]; rfl)
    rw [hsame (by simp [hnil])]
    exact hstands
  next hzero =>
    have hpred := toNat_pred hzero
    generalize removal.current_len storage key - 1 = idx at hpred
    have hlt : idx.toNat < (current.list key).length := by omega
    have hlast : (current.list key).getLast? = some (current.list key)[idx.toNat] := by
      rw [List.getLast?_eq_getElem?, ← hlength, ← hpred, Nat.add_sub_cancel]
      exact List.getElem?_eq_getElem hlt
    have hentry : (lists.list key)[idx.toNat]? = some (current.list key)[idx.toNat] := by
      rw [hinitial.getElem hlt]
      exact List.getElem?_eq_getElem _
    generalize (current.list key)[idx.toNat] = entry at hlast hentry
    have hdata := hrep.get_entry_height hkey hentry
    rw [UInt32.ofNat_toNat] at hdata
    rw [hdata]
    dsimp only
    split
    next hbad =>
      have hany : (current.list key).getLast?.any (lists.orphaned rh) = true := by
        rw [hlast, Option.any_some]
        exact (hrep.orphaned_iff rh entry).mpr hbad.2
      have hpop : current.treat (trim (lists.orphaned rh)) key = current.pop key := by
        simp [Lists.treat, Lists.pop, trim, hany]
      rw [hpop]
      exact hstands.pop hsep hkey (hpred.trans hlength)
    next hgood =>
      rw [hsame]
      · exact hstands
      · rw [hlast, Option.any_some, Bool.eq_false_iff]
        intro horphaned
        exact hgood ⟨hrep.dated key hkey entry (List.mem_of_getElem? hentry),
          (hrep.orphaned_iff rh entry).mp horphaned⟩

theorem Pending.Stands.prune_height (hsep : Separate keys) (hrep : Represents keys storage lists) {rh : UInt32}
    {removal : Removal} {done : List UInt32}
    (hstands : removal.toPending.Stands keys storage (lists.sweep (trim (lists.orphaned rh)) done)) (h : UInt32) :
    (removal.prune_height storage rh h).toPending.Stands keys storage
      (lists.sweep (trim (lists.orphaned rh)) (done ++ [h])) := by
  have hread := hrep.get_keyset h
  unfold Removal.prune_height
  cases hget : storage.get (height_keyset_key h) with
  | none =>
    rw [hget] at hread
    rw [Lists.sweep_concat_none _ _ _ hread.symm]
    exact hstands
  | some data =>
    rw [hget, Option.map_some] at hread
    dsimp only
    rw [Lists.sweep_concat, ← hread, Option.getD_some]
    refine Pending.Stands.delete_keyset hsep ?_ h
    have hlogical := hrep.named h _ hread.symm
    have hinitial := lists.sweep_list_shortens (trim_shortens (lists.orphaned rh)) done
    generalize lists.sweep (trim (lists.orphaned rh)) done = current at hstands hinitial
    generalize decode_key_set data = named at hlogical
    induction named generalizing removal current with
    | nil => exact hstands
    | cons key named ih =>
      rw [List.foldl_cons, List.foldl_cons]
      apply ih
      · exact hstands.prune_key hsep hrep (hlogical key List.mem_cons_self) (hinitial key)
      · intro query
        by_cases hsame : query = key
        · subst hsame
          simpa [Lists.treat] using (trim_shortens _ _).trans (hinitial query)
        · simpa [Lists.treat, hsame] using hinitial query
      · exact fun key hkey => hlogical key (List.mem_cons_of_mem _ hkey)

def Lists.prune (self : Lists) : Lists :=
  match self.reorg with
  | none => self
  | some rh =>
    { self.sweep (trim (self.orphaned rh)) (heights rh (max self.tip (rh + 10000))) with reorg := none }

theorem Represents.pruned (hsep : Separate keys) (hrep : Represents keys storage lists) :
    Represents keys (prune_orphaned storage).1 lists.prune := by
  unfold prune_orphaned Lists.prune
  rw [hrep.reorg_height, hrep.tip_height]
  cases lists.reorg with
  | none => exact hrep
  | some rh =>
    dsimp only
    have hloop (hs done : List UInt32) (removal : Removal)
        (hstands : removal.toPending.Stands keys storage (lists.sweep (trim (lists.orphaned rh)) done)) :
        (hs.foldl (Removal.prune_height storage rh) removal).toPending.Stands keys storage
          (lists.sweep (trim (lists.orphaned rh)) (done ++ hs)) := by
      induction hs generalizing removal done with
      | nil => simpa using hstands
      | cons h hs ih => simpa using ih (done ++ [h]) _ (hstands.prune_height hsep hrep h)
    have hdone := hloop (heights rh (max lists.tip (rh + 10000))) [] ⟨.new, 0⟩ (by
      rw [Lists.sweep_nil]
      exact hrep.stands)
    rw [IndexerStorage.write_raw_batch_append]
    exact hdone.represents.delete_reorg hsep

end qubitcoin.indexer.storage
