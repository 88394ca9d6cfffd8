import Qubitcoin.Indexer.Storage
import Mathlib.Data.List.DropRight

/-! The append-only lists as lists: what the physical keys of a storage stand for, and what
    each write does to it. -/

open qubitcoin.indexer.state

namespace qubitcoin.indexer.storage

/-- An entry of a list, with its height record. -/
structure Entry where
  value : Bytes
  record : Bytes
  deriving DecidableEq

def Entry.height (self : Entry) : UInt32 := from_le_bytes self.record

/-- What a storage is for: a list for each logical key, and for each height the keys written
    at it and the start of the hash of its block. -/
structure Lists where
  list : Bytes → List Entry
  keyset : UInt32 → Option (List Bytes)
  hash : UInt32 → Option Bytes
  tip : UInt32
  reorg : Option UInt32

def Lists.empty : Lists := ⟨fun _ => [], fun _ => none, fun _ => none, 0, none⟩

def Lists.push (self : Lists) (key : Bytes) (entry : Entry) : Lists :=
  { self with list := Function.update self.list key (self.list key ++ [entry]) }

def Lists.with_keyset (self : Lists) (height : UInt32) (named : Option (List Bytes)) : Lists :=
  { self with keyset := Function.update self.keyset height named }

def Lists.with_hash (self : Lists) (height : UInt32) (hash : Option Bytes) : Lists :=
  { self with hash := Function.update self.hash height hash }

def Lists.pop (self : Lists) (key : Bytes) : Lists :=
  { self with list := Function.update self.list key (self.list key).dropLast }

/-- Read a `u32` from what a physical key holds. -/
def read_u32 : Option Bytes → Option UInt32
  | some data => if 4 ≤ data.length then some (from_le_bytes data) else none
  | none => none

@[simp] theorem read_u32_to_le_bytes (n : UInt32) : read_u32 (some (to_le_bytes n)) = some n := by simp [read_u32]

/-- What the physical key of a record holds for the lists. What stands after the end of a
    list does not matter. -/
def Lists.Holds (self : Lists) : Record → Option Bytes → Prop
  | .length key, data => ((read_u32 data).getD 0).toNat = (self.list key).length
  | .index key n, data => ∀ entry, (self.list key)[n.toNat]? = some entry → data = some entry.value
  | .entry_height key n, data => ∀ entry, (self.list key)[n.toNat]? = some entry → data = some entry.record
  | .keyset height, data => data.map decode_key_set = self.keyset height
  | .hash height, data => data = self.hash height
  | .tip, data => (read_u32 data).getD 0 = self.tip
  | .reorg, data => read_u32 data = self.reorg

def IndexerStorage.at (self : IndexerStorage) (r : Record) : Option Bytes := self.get r.key

/-- The only physical keys of a storage are those of records. -/
def IndexerStorage.Known (keys : Bytes → Prop) (self : IndexerStorage) : Prop :=
  ∀ physical, (self.get physical).isSome → ∃ r : Record, r.Of keys ∧ r.key = physical

/-- A storage holds lists over a set of logical keys, and nothing else. -/
structure Represents (keys : Bytes → Prop) (storage : IndexerStorage) (lists : Lists) : Prop where
  holds : ∀ r : Record, r.Of keys → lists.Holds r (storage.at r)
  dated : ∀ key, keys key → ∀ entry ∈ lists.list key, 4 ≤ entry.record.length
  named : ∀ height named, lists.keyset height = some named → ∀ key ∈ named, keys key
  known : storage.Known keys

variable {keys : Bytes → Prop} {storage : IndexerStorage} {lists : Lists}

theorem represents_new (keys : Bytes → Prop) : Represents keys IndexerStorage.new Lists.empty where
  holds r _ := by cases r <;> simp [Lists.Holds, Lists.empty, read_u32, IndexerStorage.at, IndexerStorage.get,
    IndexerStorage.new]
  dated key _ entry h := by simp [Lists.empty] at h
  named height named h := by simp [Lists.empty] at h
  known physical h := by simp [IndexerStorage.get, IndexerStorage.new] at h

theorem Represents.get_length (hrep : Represents keys storage lists) {key : Bytes} (hkey : keys key) :
    (storage.get_length key).toNat = (lists.list key).length := hrep.holds (.length key) hkey

theorem Represents.tip_height (hrep : Represents keys storage lists) : storage.tip_height = lists.tip :=
  hrep.holds .tip trivial

theorem Represents.reorg_height (hrep : Represents keys storage lists) : storage.reorg_height = lists.reorg :=
  hrep.holds .reorg trivial

theorem Represents.get_canonical_hash (hrep : Represents keys storage lists) (height : UInt32) :
    storage.get_canonical_hash height = lists.hash height := hrep.holds (.hash height) trivial

theorem Represents.get_keyset (hrep : Represents keys storage lists) (height : UInt32) :
    (storage.get (height_keyset_key height)).map decode_key_set = lists.keyset height :=
  hrep.holds (.keyset height) trivial

theorem Represents.length_lt (hrep : Represents keys storage lists) {key : Bytes} (hkey : keys key) :
    (lists.list key).length < 2 ^ 32 := by
  rw [← hrep.get_length hkey]
  exact (storage.get_length key).toNat_lt

theorem Represents.index_of_lt (hrep : Represents keys storage lists) {key : Bytes} (hkey : keys key) {i : Nat}
    (hi : i < (lists.list key).length) : (UInt32.ofNat i).toNat = i ∧ UInt32.ofNat i ≠ U32_MAX := by
  have hlt := hrep.length_lt hkey
  have hback : (UInt32.ofNat i).toNat = i := UInt32.toNat_ofNat_of_lt' (hi.trans hlt)
  refine ⟨hback, ?_⟩
  intro hmax
  rw [hmax] at hback
  have : U32_MAX.toNat = 2 ^ 32 - 1 := rfl
  omega

theorem Represents.get_index (hrep : Represents keys storage lists) {key : Bytes} (hkey : keys key) {i : Nat}
    {entry : Entry} (hentry : (lists.list key)[i]? = some entry) :
    storage.get_at_index key (UInt32.ofNat i) = some entry.value := by
  obtain ⟨hback, hmax⟩ := hrep.index_of_lt hkey (List.getElem?_eq_some_iff.mp hentry).1
  exact hrep.holds (.index key (UInt32.ofNat i)) ⟨hkey, hmax⟩ entry (by rwa [hback])

theorem Represents.get_entry_height (hrep : Represents keys storage lists) {key : Bytes} (hkey : keys key) {i : Nat}
    {entry : Entry} (hentry : (lists.list key)[i]? = some entry) :
    storage.get (entry_height_key key (UInt32.ofNat i)) = some entry.record := by
  obtain ⟨hback, hmax⟩ := hrep.index_of_lt hkey (List.getElem?_eq_some_iff.mp hentry).1
  exact hrep.holds (.entry_height key (UInt32.ofNat i)) ⟨hkey, hmax⟩ entry (by rwa [hback])

theorem IndexerStorage.write_raw_batch_append (self : IndexerStorage) (first second : WriteBatch) :
    self.write_raw_batch (first ++ second) = (self.write_raw_batch first).write_raw_batch second := by
  simp [IndexerStorage.write_raw_batch, kv.write_append]

theorem IndexerStorage.write_raw_batch_cons (self : IndexerStorage) (op second : kv.Op Bytes Bytes)
    (batch : WriteBatch) :
    self.write_raw_batch (op :: second :: batch) = (self.write_raw_batch [op]).write_raw_batch (second :: batch) := rfl

theorem IndexerStorage.get_put (self : IndexerStorage) (key query value : Bytes) :
    (self.write_raw_batch [.put key value]).get query = if query = key then some value else self.get query :=
  kv.lookup_put self.db key query value

theorem IndexerStorage.get_delete (self : IndexerStorage) (key query : Bytes) :
    (self.write_raw_batch [.delete key]).get query = if query = key then none else self.get query :=
  kv.lookup_delete self.db key query

theorem IndexerStorage.at_put (hsep : Separate keys) (self : IndexerStorage) {r r' : Record} (hof : r.Of keys)
    (hof' : r'.Of keys) (value : Bytes) :
    (self.write_raw_batch [.put r.key value]).at r' = if r' = r then some value else self.at r' := by
  simp only [IndexerStorage.at, IndexerStorage.get_put, hsep.key_inj hof' hof]

theorem IndexerStorage.at_delete (hsep : Separate keys) (self : IndexerStorage) {r r' : Record} (hof : r.Of keys)
    (hof' : r'.Of keys) :
    (self.write_raw_batch [.delete r.key]).at r' = if r' = r then none else self.at r' := by
  simp only [IndexerStorage.at, IndexerStorage.get_delete, hsep.key_inj hof' hof]

theorem IndexerStorage.Known.put {self : IndexerStorage} (hknown : self.Known keys) {r : Record} (hof : r.Of keys)
    (value : Bytes) : (self.write_raw_batch [.put r.key value]).Known keys := by
  intro physical hsome
  rw [IndexerStorage.get_put] at hsome
  split at hsome
  next h => exact ⟨r, hof, h.symm⟩
  next => exact hknown physical hsome

theorem IndexerStorage.Known.delete {self : IndexerStorage} (hknown : self.Known keys) (key : Bytes) :
    (self.write_raw_batch [.delete key]).Known keys := by
  intro physical hsome
  rw [IndexerStorage.get_delete] at hsome
  split at hsome
  next => simp at hsome
  next => exact hknown physical hsome

theorem holds_concat {list : List Entry} {entry : Entry} {field : Entry → Bytes} {n m : UInt32} {data : Option Bytes}
    (hlength : n.toNat = list.length)
    (hbefore : ∀ e, list[m.toNat]? = some e → data = some (field e)) :
    ∀ e, (list ++ [entry])[m.toNat]? = some e → (if m = n then some (field entry) else data) = some (field e) := by
  intro e he
  split
  next h =>
    rw [h, hlength, List.getElem?_concat_length] at he
    rw [Option.some.inj he]
  next h =>
    have hne : m.toNat ≠ list.length := fun heq => h (UInt32.toNat_inj.mp (heq.trans hlength.symm))
    have hlt := (List.getElem?_eq_some_iff.mp he).1
    rw [List.length_append, List.length_singleton] at hlt
    rw [List.getElem?_append_left (by omega)] at he
    exact hbefore e he

theorem Represents.push (hsep : Separate keys) (hrep : Represents keys storage lists) {key : Bytes} (hkey : keys key)
    (hroom : (lists.list key).length + 1 < 2 ^ 32) (entry : Entry) (hdated : 4 ≤ entry.record.length) {n : UInt32}
    (hlength : n.toNat = (lists.list key).length) :
    Represents keys (storage.write_raw_batch [
      .put (Record.length key).key (to_le_bytes (n + 1)),
      .put (Record.index key n).key entry.value,
      .put (Record.entry_height key n).key entry.record]) (lists.push key entry) := by
  have hnext : (n + 1).toNat = (lists.list key).length + 1 := by
    rw [UInt32.toNat_add, hlength]
    exact Nat.mod_eq_of_lt hroom
  have hmax : n ≠ U32_MAX := by
    rintro rfl
    have : U32_MAX.toNat = 2 ^ 32 - 1 := rfl
    omega
  have hof : (Record.length key).Of keys ∧ (Record.index key n).Of keys ∧ (Record.entry_height key n).Of keys :=
    ⟨hkey, ⟨hkey, hmax⟩, ⟨hkey, hmax⟩⟩
  refine ⟨?_, ?_, hrep.named, ?_⟩
  · intro r hr
    have hbefore := hrep.holds r hr
    rw [IndexerStorage.write_raw_batch_cons, IndexerStorage.write_raw_batch_cons,
      IndexerStorage.at_put hsep _ hof.2.2 hr, IndexerStorage.at_put hsep _ hof.2.1 hr,
      IndexerStorage.at_put hsep _ hof.1 hr]
    cases r with
    | length key' =>
      by_cases hsame : key' = key
      · subst hsame
        simp [Lists.Holds, Lists.push, hnext]
      · simpa [Lists.Holds, Lists.push, hsame] using hbefore
    | index key' m =>
      by_cases hsame : key' = key
      · subst hsame
        simpa [Lists.Holds, Lists.push] using holds_concat hlength hbefore
      · simpa [Lists.Holds, Lists.push, hsame] using hbefore
    | entry_height key' m =>
      by_cases hsame : key' = key
      · subst hsame
        simpa [Lists.Holds, Lists.push] using holds_concat hlength hbefore
      · simpa [Lists.Holds, Lists.push, hsame] using hbefore
    | keyset | hash | tip | reorg => simpa [Lists.Holds, Lists.push] using hbefore
  · intro key' hkey' entry' hmem
    by_cases hsame : key' = key
    · subst hsame
      simp only [Lists.push, Function.update_self, List.mem_append, List.mem_singleton] at hmem
      rcases hmem with hmem | rfl
      · exact hrep.dated _ hkey' _ hmem
      · exact hdated
    · simp only [Lists.push, Function.update_of_ne hsame] at hmem
      exact hrep.dated _ hkey' _ hmem
  · rw [IndexerStorage.write_raw_batch_cons, IndexerStorage.write_raw_batch_cons]
    exact ((hrep.known.put hof.1 _).put hof.2.1 _).put hof.2.2 _

theorem IndexerStorage.get_delete_batch (self : IndexerStorage) (physical : List Bytes) (query : Bytes) :
    (self.delete_batch physical).get query = if query ∈ physical then none else self.get query := by
  unfold IndexerStorage.delete_batch
  induction physical generalizing self with
  | nil => simp [IndexerStorage.write_raw_batch]
  | cons key physical ih =>
    rw [List.map_cons, ← List.singleton_append, IndexerStorage.write_raw_batch_append, ih, IndexerStorage.get_delete]
    by_cases hsame : query = key
    · simp [hsame]
    · simp [hsame]

theorem IndexerStorage.Known.delete_batch {self : IndexerStorage} (hknown : self.Known keys) (physical : List Bytes) :
    (self.delete_batch physical).Known keys := by
  intro key hsome
  rw [IndexerStorage.get_delete_batch] at hsome
  split at hsome
  next => simp at hsome
  next => exact hknown key hsome

/-- Records of a list from an index on. -/
def Beyond (key : Bytes) (n : UInt32) (physical : Bytes) : Prop :=
  ∃ i : UInt32, n ≤ i ∧ i ≠ U32_MAX ∧ (physical = (Record.index key i).key ∨ physical = (Record.entry_height key i).key)

theorem Beyond.not_of_lt (hsep : Separate keys) {key : Bytes} (hkey : keys key) {n : UInt32} {r : Record}
    (hof : r.Of keys) (hbefore : ∀ i, n ≤ i → r ≠ .index key i ∧ r ≠ .entry_height key i) : ¬ Beyond key n r.key := by
  rintro ⟨i, hle, hmax, hindex | hheight⟩
  · exact (hbefore i hle).1 (hsep.distinct r (.index key i) hof ⟨hkey, hmax⟩ hindex)
  · exact (hbefore i hle).2 (hsep.distinct r (.entry_height key i) hof ⟨hkey, hmax⟩ hheight)

theorem Represents.truncate (hsep : Separate keys) (hrep : Represents keys storage lists) {key : Bytes}
    (hkey : keys key) {n : UInt32} (hn : n.toNat ≤ (lists.list key).length) {physical : List Bytes}
    (hbeyond : ∀ k ∈ physical, Beyond key n k) :
    Represents keys ((storage.delete_batch physical).write_raw_batch [.put (Record.length key).key (to_le_bytes n)])
      { lists with list := Function.update lists.list key ((lists.list key).take n.toNat) } := by
  have hof : (Record.length key).Of keys := hkey
  refine ⟨?_, ?_, hrep.named, (hrep.known.delete_batch _).put hof _⟩
  · intro r hr
    have hbefore := hrep.holds r hr
    have hkept (hnot : ¬ Beyond key n r.key) : (storage.delete_batch physical).at r = storage.at r := by
      rw [IndexerStorage.at, IndexerStorage.get_delete_batch, if_neg fun hmem => hnot (hbeyond _ hmem)]
      rfl
    have hentry {m : UInt32} {e : Entry} (he : ((lists.list key).take n.toNat)[m.toNat]? = some e) :
        m.toNat < n.toNat ∧ (lists.list key)[m.toNat]? = some e := by
      rw [List.getElem?_take] at he
      split at he
      next hlt => exact ⟨hlt, he⟩
      next => cases he
    rw [IndexerStorage.at_put hsep _ hof hr]
    cases r with
    | length key' =>
      by_cases hsame : key' = key
      · subst hsame
        simp [Lists.Holds, hn]
      · rw [if_neg (by simpa using hsame), hkept (Beyond.not_of_lt hsep hkey hr (by simp))]
        simpa [Lists.Holds, hsame] using hbefore
    | index key' m =>
      rw [if_neg (by simp)]
      by_cases hsame : key' = key
      · subst hsame
        intro e he
        simp only [Function.update_self] at he
        obtain ⟨hlt, he⟩ := hentry he
        rw [hkept (Beyond.not_of_lt hsep hkey hr fun i hle => ⟨?_, by simp⟩)]
        · exact hbefore e he
        · rintro ⟨⟩
          exact absurd (UInt32.le_iff_toNat_le.mp hle) (by omega)
      · rw [hkept (Beyond.not_of_lt hsep hkey hr (by simp [hsame]))]
        simpa [Lists.Holds, hsame] using hbefore
    | entry_height key' m =>
      rw [if_neg (by simp)]
      by_cases hsame : key' = key
      · subst hsame
        intro e he
        simp only [Function.update_self] at he
        obtain ⟨hlt, he⟩ := hentry he
        rw [hkept (Beyond.not_of_lt hsep hkey hr fun i hle => ⟨by simp, ?_⟩)]
        · exact hbefore e he
        · rintro ⟨⟩
          exact absurd (UInt32.le_iff_toNat_le.mp hle) (by omega)
      · rw [hkept (Beyond.not_of_lt hsep hkey hr (by simp [hsame]))]
        simpa [Lists.Holds, hsame] using hbefore
    | keyset | hash | tip | reorg =>
      rw [if_neg (by simp), hkept (Beyond.not_of_lt hsep hkey hr (by simp))]
      exact hbefore
  · intro key' hkey' entry' hmem
    by_cases hsame : key' = key
    · subst hsame
      simp only [Function.update_self] at hmem
      exact hrep.dated _ hkey' _ (List.mem_of_mem_take hmem)
    · simp only [Function.update_of_ne hsame] at hmem
      exact hrep.dated _ hkey' _ hmem

theorem Represents.pop (hsep : Separate keys) (hrep : Represents keys storage lists) {key : Bytes} (hkey : keys key)
    {n : UInt32} (hn : n.toNat + 1 = (lists.list key).length) :
    Represents keys (storage.write_raw_batch [
      .delete (Record.index key n).key,
      .delete (Record.entry_height key n).key,
      .put (Record.length key).key (to_le_bytes n)]) (lists.pop key) := by
  have hmax : n ≠ U32_MAX := by
    rintro rfl
    have hlt := hrep.length_lt hkey
    have : U32_MAX.toNat = 2 ^ 32 - 1 := rfl
    omega
  have hcut := @Represents.truncate _ _ _ hsep hrep _ hkey n (by omega)
    [(Record.index key n).key, (Record.entry_height key n).key] (by
      intro k hk
      refine ⟨n, UInt32.le_refl n, hmax, ?_⟩
      simpa using hk)
  rw [IndexerStorage.delete_batch, ← IndexerStorage.write_raw_batch_append] at hcut
  rw [show (lists.list key).take n.toNat = (lists.list key).dropLast from by
    rw [List.dropLast_eq_take, ← hn, Nat.add_sub_cancel]] at hcut
  exact hcut

theorem Represents.put (hsep : Separate keys) (hrep : Represents keys storage lists) {lists' : Lists} {r : Record}
    (hof : r.Of keys) {value : Bytes} (hlist : lists'.list = lists.list)
    (hnamed : ∀ height named, lists'.keyset height = some named → ∀ key ∈ named, keys key)
    (hnew : lists'.Holds r (some value))
    (hother : ∀ r' : Record, r' ≠ r → ∀ data, lists.Holds r' data → lists'.Holds r' data) :
    Represents keys (storage.write_raw_batch [.put r.key value]) lists' := by
  refine ⟨?_, fun key hkey => hlist ▸ hrep.dated key hkey, hnamed, hrep.known.put hof _⟩
  intro r' hr'
  rw [IndexerStorage.at_put hsep _ hof hr']
  split
  next h => exact h ▸ hnew
  next h => exact hother r' h _ (hrep.holds r' hr')

theorem Represents.delete (hsep : Separate keys) (hrep : Represents keys storage lists) {lists' : Lists} {r : Record}
    (hof : r.Of keys) (hlist : lists'.list = lists.list)
    (hnamed : ∀ height named, lists'.keyset height = some named → ∀ key ∈ named, keys key)
    (hnew : lists'.Holds r none)
    (hother : ∀ r' : Record, r' ≠ r → ∀ data, lists.Holds r' data → lists'.Holds r' data) :
    Represents keys (storage.write_raw_batch [.delete r.key]) lists' := by
  refine ⟨?_, fun key hkey => hlist ▸ hrep.dated key hkey, hnamed, hrep.known.delete _⟩
  intro r' hr'
  rw [IndexerStorage.at_delete hsep _ hof hr']
  split
  next h => exact h ▸ hnew
  next h => exact hother r' h _ (hrep.holds r' hr')

theorem Represents.put_keyset (hsep : Separate keys) (hrep : Represents keys storage lists) (height : UInt32)
    {named : List Bytes} (hnamed : ∀ key ∈ named, keys key) :
    Represents keys (storage.write_raw_batch [.put (height_keyset_key height) (encode_key_set named)])
      (lists.with_keyset height (some (named.take (named.length % 2 ^ 32)))) := by
  refine @Represents.put _ _ _ hsep hrep _ (.keyset height) trivial _ rfl ?_ ?_ ?_
  · intro other stored hstored key hkey
    simp only [Lists.with_keyset, Function.update_apply] at hstored
    split at hstored
    · rw [← Option.some.inj hstored] at hkey
      exact hnamed key (List.mem_of_mem_take hkey)
    · exact hrep.named other stored hstored key hkey
  · simp [Lists.Holds, Lists.with_keyset, decode_encode_key_set fun key hkey => hsep.short key (hnamed key hkey)]
  · intro r hne data hdata
    cases r <;> simp_all [Lists.Holds, Lists.with_keyset]

theorem Represents.delete_keyset (hsep : Separate keys) (hrep : Represents keys storage lists) (height : UInt32) :
    Represents keys (storage.write_raw_batch [.delete (height_keyset_key height)])
      (lists.with_keyset height none) := by
  refine @Represents.delete _ _ _ hsep hrep _ (.keyset height) trivial rfl ?_ ?_ ?_
  · intro other stored hstored key hkey
    simp only [Lists.with_keyset, Function.update_apply] at hstored
    split at hstored
    · cases hstored
    · exact hrep.named other stored hstored key hkey
  · simp [Lists.Holds, Lists.with_keyset]
  · intro r hne data hdata
    cases r <;> simp_all [Lists.Holds, Lists.with_keyset]

theorem Represents.put_hash (hsep : Separate keys) (hrep : Represents keys storage lists) (height : UInt32)
    (hash : Bytes) :
    Represents keys (storage.write_raw_batch [.put (height_to_hash_key height) hash])
      (lists.with_hash height (some hash)) := by
  refine @Represents.put _ _ _ hsep hrep _ (.hash height) trivial _ rfl hrep.named ?_ ?_
  · simp [Lists.Holds, Lists.with_hash]
  · intro r hne data hdata
    cases r <;> simp_all [Lists.Holds, Lists.with_hash]

theorem Represents.delete_hash (hsep : Separate keys) (hrep : Represents keys storage lists) (height : UInt32) :
    Represents keys (storage.write_raw_batch [.delete (height_to_hash_key height)]) (lists.with_hash height none) := by
  refine @Represents.delete _ _ _ hsep hrep _ (.hash height) trivial rfl hrep.named ?_ ?_
  · simp [Lists.Holds, Lists.with_hash]
  · intro r hne data hdata
    cases r <;> simp_all [Lists.Holds, Lists.with_hash]

theorem Represents.put_tip (hsep : Separate keys) (hrep : Represents keys storage lists) (height : UInt32) :
    Represents keys (storage.write_raw_batch [.put HEIGHT_KEY (to_le_bytes height)]) { lists with tip := height } := by
  refine @Represents.put _ _ _ hsep hrep _ .tip trivial _ rfl hrep.named ?_ ?_
  · simp [Lists.Holds]
  · intro r hne data hdata
    cases r <;> simp_all [Lists.Holds]

theorem Represents.put_reorg (hsep : Separate keys) (hrep : Represents keys storage lists) (height : UInt32) :
    Represents keys (storage.write_raw_batch [.put REORG_HEIGHT_KEY (to_le_bytes height)])
      { lists with reorg := some height } := by
  refine @Represents.put _ _ _ hsep hrep _ .reorg trivial _ rfl hrep.named ?_ ?_
  · simp [Lists.Holds]
  · intro r hne data hdata
    cases r <;> simp_all [Lists.Holds]

theorem Represents.delete_reorg (hsep : Separate keys) (hrep : Represents keys storage lists) :
    Represents keys (storage.write_raw_batch [.delete REORG_HEIGHT_KEY]) { lists with reorg := none } := by
  refine @Represents.delete _ _ _ hsep hrep _ .reorg trivial rfl hrep.named ?_ ?_
  · simp [Lists.Holds, read_u32]
  · intro r hne data hdata
    cases r <;> simp_all [Lists.Holds]

/-- The writes that a loop has collected make the storage hold the lists, and the loop knows
    their lengths. -/
structure Pending.Stands (keys : Bytes → Prop) (storage : IndexerStorage) (pending : Pending) (lists : Lists) :
    Prop where
  represents : Represents keys (storage.write_raw_batch pending.batch) lists
  current_len : ∀ key, keys key → (pending.current_len storage key).toNat = (lists.list key).length

variable {pending : Pending}

theorem Represents.stands (hrep : Represents keys storage lists) : Pending.new.Stands keys storage lists :=
  ⟨hrep, fun _ hkey => hrep.get_length hkey⟩

theorem Pending.current_len_insert {batch : WriteBatch} (self : Pending) (storage : IndexerStorage)
    (key query : Bytes) (n : UInt32) :
    Pending.current_len ⟨batch, self.length_cache.insert key n⟩ storage query =
      if query = key then n else self.current_len storage query := by
  unfold Pending.current_len
  split
  next h =>
    subst h
    simp
  next h => simp [AList.lookup_insert_ne h]

theorem Pending.Stands.append (hsep : Separate keys) (hstands : pending.Stands keys storage lists) (record : Bytes)
    (hdated : 4 ≤ record.length) {pair : Bytes × Bytes} (hkey : keys pair.1)
    (hroom : (lists.list pair.1).length + 1 < 2 ^ 32) :
    (pending.append storage record pair).Stands keys storage (lists.push pair.1 ⟨pair.2, record⟩) := by
  have hlength := hstands.current_len pair.1 hkey
  refine ⟨?_, ?_⟩
  · have hpush := hstands.represents.push hsep hkey hroom ⟨pair.2, record⟩ hdated hlength
    rw [← IndexerStorage.write_raw_batch_append] at hpush
    exact hpush
  · intro key hkey'
    unfold Pending.append
    dsimp only
    rw [Pending.current_len_insert]
    split
    next h =>
      rw [h, UInt32.toNat_add, hlength]
      simpa [Lists.push] using hroom
    next h => simpa [Lists.push, h] using hstands.current_len key hkey'

theorem Pending.Stands.pop (hsep : Separate keys) (hstands : pending.Stands keys storage lists) {key : Bytes}
    (hkey : keys key) {idx : UInt32} (hidx : idx.toNat + 1 = (lists.list key).length) :
    (pending.pop key idx).Stands keys storage (lists.pop key) := by
  refine ⟨?_, ?_⟩
  · have hpop := hstands.represents.pop hsep hkey hidx
    rw [← IndexerStorage.write_raw_batch_append] at hpop
    exact hpop
  · intro query hquery
    unfold Pending.pop
    rw [Pending.current_len_insert]
    split
    next h =>
      rw [h]
      simp [Lists.pop]
      omega
    next h => simpa [Lists.pop, h] using hstands.current_len query hquery

theorem Pending.Stands.delete_keyset (hsep : Separate keys) (hstands : pending.Stands keys storage lists)
    (height : UInt32) :
    Pending.Stands keys storage ⟨pending.batch ++ [.delete (height_keyset_key height)], pending.length_cache⟩
      (lists.with_keyset height none) := by
  refine ⟨?_, hstands.current_len⟩
  rw [IndexerStorage.write_raw_batch_append]
  exact hstands.represents.delete_keyset hsep height

end qubitcoin.indexer.storage
