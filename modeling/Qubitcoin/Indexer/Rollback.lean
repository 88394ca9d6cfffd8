import Qubitcoin.Indexer.Operations

/-! `rollback_to_height` as an operation on lists: the walk over the key sets and the scan
    that takes its place from the first height without one. -/

open qubitcoin.indexer.state

namespace qubitcoin.indexer.storage

variable {keys : Bytes → Prop} {storage : IndexerStorage} {lists : Lists}

theorem Pending.Stands.rollback_key (hsep : Separate keys) {removal : Removal}
    (hstands : removal.toPending.Stands keys storage lists) {key : Bytes} (hkey : keys key) :
    (removal.rollback_key storage key).toPending.Stands keys storage (lists.treat List.dropLast key) := by
  have hlength := hstands.current_len key hkey
  unfold Removal.rollback_key
  dsimp only
  split
  next hpos =>
    have hzero : removal.current_len storage key ≠ 0 := by
      intro hzero
      rw [hzero] at hpos
      exact UInt32.lt_irrefl _ hpos
    exact hstands.pop hsep hkey ((toNat_pred hzero).trans hlength)
  next hnot =>
    have hle := UInt32.le_iff_toNat_le.mp (UInt32.not_lt.mp hnot)
    have hnil : lists.list key = [] := List.length_eq_zero_iff.mp (by
      rw [← hlength]
      exact Nat.le_zero.mp hle)
    have hsame : lists.treat List.dropLast key = lists := by
      unfold Lists.treat
      rw [hnil, List.dropLast_nil, ← hnil, Function.update_eq_self]
    rw [hsame]
    exact hstands

theorem Pending.Stands.rollback_keys (hsep : Separate keys) {removal : Removal} {named : List Bytes}
    (hstands : removal.toPending.Stands keys storage lists) (hlogical : ∀ key ∈ named, keys key) :
    (named.foldl (Removal.rollback_key storage) removal).toPending.Stands keys storage
      (named.foldl (fun lists key => lists.treat List.dropLast key) lists) := by
  induction named generalizing removal lists with
  | nil => exact hstands
  | cons key named ih =>
    rw [List.foldl_cons, List.foldl_cons]
    apply ih
    · exact hstands.rollback_key hsep (hlogical key List.mem_cons_self)
    · exact fun key hkey => hlogical key (List.mem_cons_of_mem _ hkey)

theorem Pending.Stands.rollback_heights (hsep : Separate keys) (hrep : Represents keys storage lists)
    (hs done : List UInt32) (removal : Removal)
    (hstands : removal.toPending.Stands keys storage (lists.sweep List.dropLast done)) :
    (removal.rollback_heights storage hs).1.toPending.Stands keys storage
        (lists.sweep List.dropLast (done ++ hs.takeWhile fun h => (lists.keyset h).isSome)) ∧
      (removal.rollback_heights storage hs).2 = !hs.all fun h => (lists.keyset h).isSome := by
  induction hs generalizing removal done with
  | nil => simpa [Removal.rollback_heights] using hstands
  | cons h hs ih =>
    have hread := hrep.get_keyset h
    unfold Removal.rollback_heights
    cases hget : storage.get (height_keyset_key h) with
    | none =>
      rw [hget, Option.map_none] at hread
      simpa [← hread] using hstands
    | some data =>
      rw [hget, Option.map_some] at hread
      have hkeys := hstands.rollback_keys hsep (hrep.named h _ hread.symm)
      dsimp only
      generalize hpopped : (decode_key_set data).foldl (Removal.rollback_key storage) removal = popped at hkeys
      have hnext := ih (done ++ [h]) { popped with batch := popped.batch ++ [.delete (height_keyset_key h)] } (by
        rw [Lists.sweep_concat, ← hread, Option.getD_some]
        exact hkeys.delete_keyset hsep h)
      simpa [← hread] using hnext

/-- The entries at the end of a list that lie above a height. -/
def above (target_height : UInt32) (entry : Entry) : Bool := decide (target_height < entry.height)

theorem Represents.scan_below (hrep : Represents keys storage lists) {key : Bytes} (hkey : keys key)
    (target_height : UInt32) (n : Nat) (hn : n ≤ (lists.list key).length) (found : List Bytes × UInt32 × UInt32)
    {m : Nat} (hm : m = (((lists.list key).take n).rdropWhile (above target_height)).length) :
    ∃ physical, (legacy_below storage key target_height n found).1 = found.1 ++ physical ∧
      (legacy_below storage key target_height n found).2.1 = (if physical = [] then found.2.1 else UInt32.ofNat m) ∧
      (physical = [] → m = n) ∧ ∀ k ∈ physical, Beyond key (UInt32.ofNat m) k := by
  induction n generalizing found with
  | zero => exact ⟨[], by simp [legacy_below], rfl, by simp [hm], by simp⟩
  | succ n ih =>
    have hlt : n < (lists.list key).length := by omega
    have hentry := List.getElem?_eq_getElem hlt
    generalize (lists.list key)[n] = entry at hentry
    rw [List.take_add_one, hentry, Option.toList_some] at hm
    obtain ⟨found, new_len, deleted⟩ := found
    unfold legacy_below
    dsimp only
    rw [hrep.get_entry_height hkey hentry]
    dsimp only
    rw [if_pos (hrep.dated key hkey entry (List.mem_of_getElem? hentry))]
    by_cases habove : target_height < from_le_bytes entry.record
    · have hdrop : above target_height entry = true := decide_eq_true habove
      rw [List.rdropWhile_concat_pos _ _ _ hdrop] at hm
      obtain ⟨physical, hfound, hlen, hnil, hbeyond⟩ := ih (by omega)
        (found ++ [index_key key (UInt32.ofNat n), entry_height_key key (UInt32.ofNat n)], UInt32.ofNat n, deleted + 1) hm
      have hle : m ≤ n := by
        rw [hm]
        exact (List.rdropWhile_prefix _ _).length_le.trans (List.length_take_le _ _)
      have hlower : UInt32.ofNat m ≤ UInt32.ofNat n := by
        have hfit := hrep.length_lt hkey
        rw [UInt32.le_iff_toNat_le, UInt32.toNat_ofNat_of_lt' (show m < 2 ^ 32 by omega),
          UInt32.toNat_ofNat_of_lt' (show n < 2 ^ 32 by omega)]
        exact hle
      have hmax := (hrep.index_of_lt hkey hlt).2
      refine ⟨index_key key (UInt32.ofNat n) :: entry_height_key key (UInt32.ofNat n) :: physical, ?_, ?_, ?_, ?_⟩
      · rw [if_pos habove, hfound]
        simp
      · rw [if_pos habove, hlen, if_neg (List.cons_ne_nil _ _)]
        split
        next hempty => rw [hnil hempty]
        next => rfl
      · intro hempty
        cases hempty
      · intro k hk
        simp only [List.mem_cons] at hk
        rcases hk with rfl | rfl | hk
        · exact ⟨_, hlower, hmax, .inl rfl⟩
        · exact ⟨_, hlower, hmax, .inr rfl⟩
        · exact hbeyond k hk
    · have hkeep : ¬ above target_height entry = true := fun h => habove (of_decide_eq_true h)
      rw [List.rdropWhile_concat_neg _ _ _ hkeep] at hm
      rw [if_neg habove]
      refine ⟨[], by simp, rfl, ?_, by simp⟩
      intro _
      simp [hm]
      omega

theorem Represents.scan_key (hsep : Separate keys) (hrep : Represents keys storage lists) {key : Bytes}
    (hkey : keys key) (target_height deleted : UInt32) {len : UInt32} (hlen : len.toNat = (lists.list key).length) :
    Represents keys (legacy_key target_height (storage, deleted) (key, len)).1
      (lists.treat (List.rdropWhile (above target_height)) key) := by
  generalize hm : (((lists.list key).take len.toNat).rdropWhile (above target_height)).length = m
  obtain ⟨physical, hfound, hnew, hnil, hbeyond⟩ :=
    hrep.scan_below hkey target_height len.toNat hlen.le ([], len, deleted) hm.symm
  rw [hlen, List.take_length] at hm
  have hinitial := List.rdropWhile_prefix (above target_height) (lists.list key)
  have htake : (lists.list key).rdropWhile (above target_height) = (lists.list key).take m := by
    rw [← hm]
    exact List.prefix_iff_eq_take.mp hinitial
  unfold legacy_key
  dsimp only
  rw [List.nil_append] at hfound
  rw [hfound]
  by_cases hempty : physical = []
  · have hsame : lists.treat (List.rdropWhile (above target_height)) key = lists := by
      unfold Lists.treat
      rw [htake, hnil hempty, hlen, List.take_length, Function.update_eq_self]
    rw [hempty, List.isEmpty_nil, if_pos rfl, hsame]
    exact hrep
  · have hle : m ≤ (lists.list key).length := hm ▸ hinitial.length_le
    have hback : (UInt32.ofNat m).toNat = m :=
      UInt32.toNat_ofNat_of_lt' (Nat.lt_of_le_of_lt hle (hrep.length_lt hkey))
    rw [if_neg hempty] at hnew
    rw [hnew, if_neg (by simpa using hempty)]
    have hcut := hrep.truncate hsep hkey (hback.le.trans hle) hbeyond
    unfold Lists.treat
    rw [htake]
    rw [hback] at hcut
    exact hcut

theorem legacy_key_of_no_heights {key : Bytes} (hnone : ∀ n, storage.get (entry_height_key key n) = none)
    (target_height deleted len : UInt32) :
    (legacy_key target_height (storage, deleted) (key, len)).1 = storage := by
  have hfound (n : Nat) (found : List Bytes × UInt32 × UInt32) :
      legacy_below storage key target_height n found = found := by
    induction n generalizing found with
    | zero => rfl
    | succ n ih =>
      unfold legacy_below
      dsimp only
      rw [hnone]
      exact ih found
  unfold legacy_key
  dsimp only
  rw [hfound]
  rfl

theorem IndexerStorage.mem_raw_iterator {key value : Bytes} :
    (key, value) ∈ storage.raw_iterator ↔ storage.get key = some value := by
  unfold IndexerStorage.raw_iterator IndexerStorage.get
  rw [List.mem_insertionSort, List.mem_map, ← Option.mem_def, AList.mem_lookup_iff]
  constructor
  · rintro ⟨entry, hmem, heq⟩
    cases heq
    exact hmem
  · intro hmem
    exact ⟨_, hmem, rfl⟩

theorem mem_length_keys {base : Bytes} {len : UInt32} :
    (base, len) ∈ length_keys storage ↔
      ∃ value, storage.get (length_key base) = some value ∧ 4 ≤ value.length ∧ len = from_le_bytes value := by
  unfold length_keys
  rw [List.mem_filterMap]
  constructor
  · rintro ⟨⟨key, value⟩, hmem, hfound⟩
    dsimp only at hfound
    split at hfound
    next hlength =>
      obtain ⟨-, ⟨start, rfl⟩, hvalue⟩ := hlength
      cases hfound
      refine ⟨value, ?_, hvalue, rfl⟩
      simpa [length_key, ← IndexerStorage.mem_raw_iterator] using hmem
    next => cases hfound
  · rintro ⟨value, hget, hvalue, rfl⟩
    refine ⟨(length_key base, value), IndexerStorage.mem_raw_iterator.mpr hget, ?_⟩
    simp [length_key, hvalue]

theorem length_keys_distinct : (length_keys storage).Pairwise fun a b => a.1 ≠ b.1 := by
  have hpairs : storage.raw_iterator.Pairwise fun a b => a.1 ≠ b.1 := by
    unfold IndexerStorage.raw_iterator
    refine (List.perm_insertionSort _ _).symm.pairwise ?_ ?_
    · exact List.pairwise_map.mpr (List.pairwise_map.mp storage.db.nodupKeys)
    · exact Ne.symm
  refine List.pairwise_filterMap.mpr (hpairs.imp ?_)
  rintro ⟨key, value⟩ ⟨key', value'⟩ hne ⟨base, len⟩ hfound ⟨base', len'⟩ hfound' rfl
  simp only [Option.ite_none_right_eq_some, Option.some.injEq, Prod.mk.injEq] at hfound hfound'
  obtain ⟨⟨-, ⟨start, rfl⟩, -⟩, hbase, -⟩ := hfound
  obtain ⟨⟨-, ⟨start', rfl⟩, -⟩, hbase', -⟩ := hfound'
  simp_all

theorem Represents.base_of_counter (hrep : Represents keys storage lists) {base value : Bytes}
    (hget : storage.get (length_key base) = some value) :
    keys base ∨ base = KEYSET_PREFIX ∨ base = HEIGHT_TO_HASH_PREFIX := by
  obtain ⟨r, hof, hr⟩ := hrep.known (length_key base) (by rw [hget]; rfl)
  cases r with
  | length key =>
    obtain ⟨rfl, -⟩ := append_to_le_bytes_inj.mp hr
    exact .inl hof
  | index key m => exact absurd (append_to_le_bytes_inj.mp hr).2 hof.2
  | entry_height key m => exact absurd (append_to_le_bytes_inj.mp hr).2 hof.2
  | keyset height => exact .inr (.inl (append_to_le_bytes_inj.mp hr).1.symm)
  | hash height => exact .inr (.inr (append_to_le_bytes_inj.mp hr).1.symm)
  | tip | reorg =>
    -- these end in other bytes than a length counter
    have hend := congrArg (fun key => key.drop (key.length - 4)) hr
    simp [Record.key, length_key] at hend
    exact absurd hend (by decide)

theorem Represents.no_heights (hsep : Separate keys) (hrep : Represents keys storage lists) {base : Bytes}
    (hbase : base = KEYSET_PREFIX ∨ base = HEIGHT_TO_HASH_PREFIX) (n : UInt32) :
    storage.get (entry_height_key base n) = none := by
  by_contra hsome
  obtain ⟨r, hof, hr⟩ := hrep.known (entry_height_key base n) (Option.isSome_iff_ne_none.mpr hsome)
  rcases hbase with rfl | rfl
  · exact hsep.keyset_keys r hof n hr
  · exact hsep.hash_keys r hof n hr

theorem Represents.congr (hrep : Represents keys storage lists) {other : Bytes → List Entry}
    (hsame : ∀ key, keys key → lists.list key = other key) : Represents keys storage { lists with list := other } := by
  refine ⟨?_, ?_, hrep.named, hrep.known⟩
  swap
  · intro key hkey
    dsimp only
    rw [← hsame key hkey]
    exact hrep.dated key hkey
  intro r hof
  have hbefore := hrep.holds r hof
  cases r with
  | length key => simpa [Lists.Holds, hsame key hof] using hbefore
  | index key n => simpa [Lists.Holds, hsame key hof.1] using hbefore
  | entry_height key n => simpa [Lists.Holds, hsame key hof.1] using hbefore
  | keyset | hash | tip | reorg => exact hbefore

theorem Represents.scan_keys (hsep : Separate keys) (target_height : UInt32) (counters : List (Bytes × UInt32))
    (deleted : UInt32) (hrep : Represents keys storage lists)
    (hdistinct : counters.Pairwise fun a b => a.1 ≠ b.1)
    (hlen : ∀ c ∈ counters, keys c.1 → c.2.toNat = (lists.list c.1).length)
    (hbase : ∀ c ∈ counters, keys c.1 ∨ c.1 = KEYSET_PREFIX ∨ c.1 = HEIGHT_TO_HASH_PREFIX) :
    Represents keys (counters.foldl (legacy_key target_height) (storage, deleted)).1
      { lists with list := fun key =>
          if key ∈ counters.map Prod.fst then (lists.list key).rdropWhile (above target_height) else lists.list key } := by
  induction counters generalizing storage deleted lists with
  | nil => simpa using hrep
  | cons counter counters ih =>
    obtain ⟨base, len⟩ := counter
    obtain ⟨hfirst, hdistinct⟩ := List.pairwise_cons.mp hdistinct
    have hone : Represents keys (legacy_key target_height (storage, deleted) (base, len)).1
        (lists.treat (List.rdropWhile (above target_height)) base) := by
      by_cases hkey : keys base
      · exact hrep.scan_key hsep hkey target_height deleted (hlen _ List.mem_cons_self hkey)
      · have hreserved := (hbase _ List.mem_cons_self).resolve_left hkey
        rw [legacy_key_of_no_heights (hrep.no_heights hsep hreserved)]
        refine hrep.congr ?_
        intro key hlogical
        rw [Function.update_of_ne]
        rintro rfl
        exact hkey hlogical
    have hrest := ih (legacy_key target_height (storage, deleted) (base, len)).2 hone hdistinct ?_
      fun c hc => hbase c (List.mem_cons_of_mem _ hc)
    · rw [List.foldl_cons]
      refine hrest.congr ?_
      intro key hkey
      by_cases hsame : key = base
      · subst hsame
        have hnot : key ∉ counters.map Prod.fst := by
          intro hmem
          obtain ⟨c, hc, rfl⟩ := List.mem_map.mp hmem
          exact hfirst c hc rfl
        simp [Lists.treat, hnot]
      · simp only [Lists.treat, Function.update_of_ne hsame]
        exact if_congr (by simp [hsame]) rfl rfl
    · intro c hc hkey
      have hne : c.1 ≠ base := (hfirst c hc).symm
      simpa [Lists.treat, hne] using hlen c (List.mem_cons_of_mem _ hc) hkey

theorem Represents.scan (hsep : Separate keys) (hrep : Represents keys storage lists) (target_height : UInt32) :
    Represents keys (rollback_legacy storage target_height).1
      { lists with
        list := fun key => (lists.list key).rdropWhile (above target_height)
        tip := target_height } := by
  have hloop := hrep.scan_keys hsep target_height (length_keys storage) 0 length_keys_distinct
    (by
      rintro ⟨base, len⟩ hmem hkey
      obtain ⟨value, hget, hvalue, rfl⟩ := mem_length_keys.mp hmem
      rw [← hrep.get_length hkey]
      simp [IndexerStorage.get_length, IndexerStorage.get_u32, hget, hvalue])
    (by
      rintro ⟨base, len⟩ hmem
      obtain ⟨value, hget, -, -⟩ := mem_length_keys.mp hmem
      exact hrep.base_of_counter hget)
  refine ((hloop.put_tip hsep target_height).congr ?_)
  intro key hkey
  dsimp only
  split
  next => rfl
  next hmissed =>
    -- a list without a counter is empty
    have hnil : lists.list key = [] := by
      rw [← List.length_eq_zero_iff, ← hrep.get_length hkey]
      unfold IndexerStorage.get_length IndexerStorage.get_u32
      cases hget : storage.get (length_key key) with
      | none => rfl
      | some value =>
        dsimp only
        split
        next hvalue =>
          exact absurd (List.mem_map.mpr ⟨_, mem_length_keys.mpr ⟨value, hget, hvalue, rfl⟩, rfl⟩) hmissed
        next => rfl
    rw [hnil, List.rdropWhile_nil]

/-- The heights that a rollback walks down, as long as they have key sets. -/
def Lists.walked (self : Lists) (target_height : UInt32) : List UInt32 :=
  (heights (target_height + 1) self.tip).reverse.takeWhile fun h => (self.keyset h).isSome

def Lists.rollback (self : Lists) (target_height : UInt32) : Lists :=
  if self.tip ≤ target_height then { self with tip := target_height }
  else
    let swept := { self.sweep List.dropLast (self.walked target_height) with tip := target_height }
    if (heights (target_height + 1) self.tip).all fun h => (self.keyset h).isSome then swept
    else { swept with list := fun key => (swept.list key).rdropWhile (above target_height) }

theorem Represents.rolled_back (hsep : Separate keys) (hrep : Represents keys storage lists)
    (target_height : UInt32) :
    Represents keys (rollback_to_height storage target_height).1 (lists.rollback target_height) := by
  unfold rollback_to_height Lists.rollback
  dsimp only
  rw [hrep.tip_height]
  split
  next => exact hrep.put_tip hsep target_height
  next =>
    obtain ⟨hwalk, hbroke⟩ := Pending.Stands.rollback_heights hsep hrep
      (heights (target_height + 1) lists.tip).reverse [] ⟨.new, 0⟩ (by
        rw [Lists.sweep_nil]
        exact hrep.stands)
    rw [List.nil_append] at hwalk
    rw [List.all_reverse] at hbroke
    have hswept := hwalk.represents.put_tip hsep target_height
    rw [← IndexerStorage.write_raw_batch_append] at hswept
    generalize Removal.rollback_heights storage ⟨.new, 0⟩ (heights (target_height + 1) lists.tip).reverse = result
      at hbroke hswept
    obtain ⟨removal, broke⟩ := result
    dsimp only at hbroke hswept ⊢
    subst hbroke
    cases (heights (target_height + 1) lists.tip).all fun h => (lists.keyset h).isSome with
    | false => exact hswept.scan hsep target_height
    | true => exact hswept

end qubitcoin.indexer.storage
