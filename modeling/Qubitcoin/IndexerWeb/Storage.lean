import Qubitcoin.Indexer.State
import Qubitcoin.Coins.Cache
import Qubitcoin.Lib.Chunks

/-! `qubitcoin-indexer-web/storage.rs`: the store of an indexer that runs in a browser. The
    lists of all logical keys share one map. Lengths are `usize` of 64 bits. -/

open qubitcoin indexer indexer.state

namespace qubitcoin.indexer_web.storage

/-- The entries of a `BTreeMap`, in the order of its keys. -/
def iter {V : Type} (map : HashMap Bytes V) : List (Bytes × V) :=
  (chunks.pairs map).mergeSort fun a b => decide (a.1 ≤ b.1)

structure WebIndexerStorage where
  kv : HashMap Bytes Bytes
  insert_count : Nat
  deriving DecidableEq

namespace WebIndexerStorage

def new : WebIndexerStorage := ⟨∅, 0⟩

variable (self : WebIndexerStorage)

def get (key : Bytes) : Option Bytes := self.kv.lookup key

def get_u32 (key : Bytes) : Option UInt32 :=
  match self.get key with
  | some data => if 4 ≤ data.length then some (from_le_bytes data) else none
  | none => none

def put (key value : Bytes) : WebIndexerStorage := ⟨self.kv.insert key value, self.insert_count + 1⟩

/-- `/runes/proto/`. -/
def RUNES_PROTO : Bytes := [0x2f, 0x72, 0x75, 0x6e, 0x65, 0x73, 0x2f, 0x70, 0x72, 0x6f, 0x74, 0x6f, 0x2f]

/-- The keys that `get_latest` searches for where the length of a list is missing: the length
    keys that start with the logical key, three at most. -/
def sentinel_matches (key : Bytes) : List Bytes :=
  (((iter self.kv).map Prod.fst).filter fun k =>
    key.isPrefixOf k && (to_le_bytes U32_MAX).isSuffixOf k).take 3

/-- The search that looks for a bug where a long key of rune balances has no length. -/
def check_sentinels (key : Bytes) : Except Panic Unit :=
  if (self.get (length_key key)).isSome then
    .error (.assertion_failed ("get_latest BUG: brute-force found the key but get() didn't! len_key_len=" ++
      toString (length_key key).length))
  else
    match self.sentinel_matches key with
    | [] => .ok ()
    | first :: rest =>
      .error (.assertion_failed ("get_latest BUG: found " ++ toString (rest.length + 1) ++
        " prefix-matching sentinel keys but exact match failed! key_len=" ++ toString (length_key key).length ++
        " match_len=" ++ toString first.length))

def get_latest (key : Bytes) : Except Panic (Option Bytes) :=
  match self.get_u32 (length_key key) with
  | none =>
    if RUNES_PROTO.isPrefixOf key ∧ 60 < key.length then do
      self.check_sentinels key
      pure none
    else .ok none
  | some len => .ok (if len = 0 then none else self.get (index_key key (len - 1)))

def get_length (key : Bytes) : UInt32 := (self.get_u32 (length_key key)).getD 0

def tip_height : UInt32 := (self.get_u32 HEIGHT_KEY).getD 0

def set_tip_height (height : UInt32) : WebIndexerStorage := self.put HEIGHT_KEY (to_le_bytes height)

/-- The writes of an append: the length of the list, the entry and its height. -/
def put_entry (key value : Bytes) (height current_len : UInt32) : WebIndexerStorage :=
  ((self.put (length_key key) (to_le_bytes (current_len + 1))).put (index_key key current_len) value).put
    (entry_height_key key current_len) (to_le_bytes height)

def append (key value : Bytes) (height : UInt32) : Except Panic WebIndexerStorage :=
  let current_len := self.get_length key
  if current_len = U32_MAX then .error (.overflow .u32)
  else
    let next := self.put_entry key value height current_len
    if next.get_u32 (length_key key) = some (current_len + 1) then .ok next
    else
      let got := match next.get_u32 (length_key key) with
        | some len => "Some(" ++ toString len ++ ")"
        | none => "None"
      .error (.assertion_failed ("append: length key not readable after put! expected=" ++ toString (current_len + 1) ++
        " got=" ++ got ++ " key_len=" ++ toString key.length ++ " len_key_len=" ++ toString (length_key key).length))

def delete_batch (keys : List Bytes) : WebIndexerStorage :=
  { self with kv := keys.foldl (fun kv key => kv.erase key) self.kv }

def keys_with_lengths : List (Bytes × UInt32) :=
  (iter self.kv).filterMap fun entry =>
    if 4 ≤ entry.1.length ∧ (to_le_bytes U32_MAX).isSuffixOf entry.1 ∧ 4 ≤ entry.2.length then
      some (entry.1.take (entry.1.length - 4), from_le_bytes entry.2)
    else none

def export_bytes : Bytes :=
  littleEndian.toBytes 4 (iter self.kv).length ++ (iter self.kv).flatMap chunks.write_pair

/-- What an import reports where the bytes end early. -/
def truncated : chunks.PairCut → String
  | .first .length => "truncated key length"
  | .first .bytes => "truncated key data"
  | .second .length => "truncated value length"
  | .second .bytes => "truncated value data"

/-- Replace all data. The map is cleared first and filled while the bytes are read; the result
    stands beside the store. -/
def import_bytes (data : Bytes) : WebIndexerStorage × Except String Nat :=
  match chunks.read_nat data with
  | none => (.new, .ok 0)
  | some (count, rest) =>
    let (pairs, result) := chunks.read_pairs count rest
    match result with
    | .ok _ => (⟨chunks.fill pairs, count⟩, .ok count)
    | .error cut => (⟨chunks.fill pairs, 0⟩, .error (truncated cut))

end WebIndexerStorage

end qubitcoin.indexer_web.storage

/-! The lists that appends build in the store of the web indexer: which sequences of appends
    leave one list for each logical key. -/

open qubitcoin indexer indexer.state

namespace qubitcoin.indexer_web.storage

/-- The arguments of an append. -/
structure Call where
  key : Bytes
  value : Bytes
  height : UInt32
  deriving DecidableEq, Repr

/-- The store after a sequence of appends. -/
def appended (calls : List Call) : Except Panic WebIndexerStorage :=
  calls.foldlM (fun store call => store.append call.key call.value call.height) .new

/-- The values that were appended to a key. -/
def entries (calls : List Call) (key : Bytes) : List Bytes :=
  calls.filterMap fun call => if call.key = key then some call.value else none

theorem entries_concat (calls : List Call) (call : Call) (key : Bytes) :
    entries (calls ++ [call]) key = if call.key = key then entries calls key ++ [call.value] else entries calls key := by
  unfold entries
  rw [List.filterMap_append]
  split
  · next heq => simp [heq]
  · next hne => simp [hne]

theorem entries_ne_nil {calls : List Call} {key : Bytes} : entries calls key ≠ [] ↔ ∃ call ∈ calls, call.key = key := by
  constructor
  · intro hne
    obtain ⟨value, hvalue⟩ := List.exists_mem_of_ne_nil _ hne
    obtain ⟨call, hcall, hsome⟩ := List.mem_filterMap.mp hvalue
    split at hsome
    · next heq => exact ⟨call, hcall, heq⟩
    · cases hsome
  · rintro ⟨call, hcall, heq⟩
    have hmem : call.value ∈ entries calls key := List.mem_filterMap.mpr ⟨call, hcall, if_pos heq⟩
    exact List.ne_nil_of_mem hmem

theorem length_entries_le {before calls : List Call} (hbefore : before <+: calls) (key : Bytes) :
    (entries before key).length ≤ (entries calls key).length := by
  obtain ⟨rest, rfl⟩ := hbefore
  unfold entries
  rw [List.filterMap_append, List.length_append]
  omega

namespace WebIndexerStorage

variable {store : WebIndexerStorage}

theorem get_put (key value query : Bytes) :
    (store.put key value).get query = if query = key then some value else store.get query := by
  unfold get put
  split
  · next heq => rw [heq, AList.lookup_insert]
  · next hne => rw [AList.lookup_insert_ne hne]

theorem get_u32_of_get {key : Bytes} {n : UInt32} (hget : store.get key = some (to_le_bytes n)) :
    store.get_u32 key = some n := by
  rw [get_u32, hget]
  dsimp only
  rw [if_pos (by simp), from_le_bytes_to_le_bytes]

end WebIndexerStorage

theorem length_key_ne_index_key {key other : Bytes} {n : UInt32} (hn : n ≠ U32_MAX) :
    length_key key ≠ index_key other n := by
  intro heq
  exact hn (append_to_le_bytes_inj.mp heq).2.symm

theorem entry_height_key_eq (key : Bytes) (n : UInt32) :
    entry_height_key key n = index_key (key ++ ENTRY_HEIGHT_INFIX) n := rfl

theorem index_key_inj {key other : Bytes} {n m : UInt32} : index_key key n = index_key other m ↔ key = other ∧ n = m :=
  append_to_le_bytes_inj

theorem length_key_inj {key other : Bytes} : length_key key = length_key other ↔ key = other :=
  append_to_le_bytes_inj.trans (and_iff_left rfl)

theorem append_infix_ne (key : Bytes) : key ≠ key ++ ENTRY_HEIGHT_INFIX := by
  intro heq
  have hlength := congrArg List.length heq
  rw [List.length_append] at hlength
  exact absurd (Nat.left_eq_add.mp hlength) (by decide)

/-- The length records of the store are those of the lists. -/
def Stored (calls : List Call) (store : WebIndexerStorage) : Prop :=
  ∀ key, store.get (length_key key) =
    if entries calls key = [] then none else some (to_le_bytes (UInt32.ofNat (entries calls key).length))

theorem Stored.get_u32 {calls : List Call} {store : WebIndexerStorage} (hstored : Stored calls store) (key : Bytes) :
    store.get_u32 (length_key key) =
      if entries calls key = [] then none else some (UInt32.ofNat (entries calls key).length) := by
  have hget := hstored key
  split
  · next hnil =>
    rw [if_pos hnil] at hget
    rw [WebIndexerStorage.get_u32, hget]
  · next hne =>
    rw [if_neg hne] at hget
    exact WebIndexerStorage.get_u32_of_get hget

theorem Stored.get_length {calls : List Call} {store : WebIndexerStorage} (hstored : Stored calls store) (key : Bytes) :
    store.get_length key = UInt32.ofNat (entries calls key).length := by
  rw [WebIndexerStorage.get_length, hstored.get_u32]
  split
  · next hnil =>
    rw [hnil]
    rfl
  · rfl

theorem get_put_entry_length_key {store : WebIndexerStorage} {n : UInt32} (hn : n ≠ U32_MAX) (key value query : Bytes)
    (height : UInt32) : (store.put_entry key value height n).get (length_key query) =
      if query = key then some (to_le_bytes (n + 1)) else store.get (length_key query) := by
  rw [WebIndexerStorage.put_entry, WebIndexerStorage.get_put, entry_height_key_eq,
    if_neg (length_key_ne_index_key hn), WebIndexerStorage.get_put, if_neg (length_key_ne_index_key hn),
    WebIndexerStorage.get_put]
  exact if_congr length_key_inj rfl rfl

theorem get_put_entry_index_key {store : WebIndexerStorage} {m : UInt32} (hm : m ≠ U32_MAX) (key value query : Bytes)
    (height n : UInt32) : (store.put_entry key value height n).get (index_key query m) =
      if query = key ++ ENTRY_HEIGHT_INFIX ∧ m = n then some (to_le_bytes height)
      else if query = key ∧ m = n then some value
      else store.get (index_key query m) := by
  rw [WebIndexerStorage.put_entry, WebIndexerStorage.get_put, entry_height_key_eq, WebIndexerStorage.get_put,
    WebIndexerStorage.get_put, if_neg (Ne.symm (length_key_ne_index_key hm))]
  exact if_congr index_key_inj rfl (if_congr index_key_inj rfl rfl)

section

variable {calls : List Call} {store : WebIndexerStorage} {call : Call}

def after (store : WebIndexerStorage) (calls : List Call) (call : Call) : WebIndexerStorage :=
  store.put_entry call.key call.value call.height (UInt32.ofNat (entries calls call.key).length)

theorem ofNat_length_ne_max {n : Nat} (hfew : n < 2 ^ 32 - 1) : UInt32.ofNat n ≠ U32_MAX := by
  intro heq
  have hnat := congrArg UInt32.toNat heq
  have hsize : n < UInt32.size := hfew.trans (by decide)
  rw [UInt32.toNat_ofNat_of_lt' hsize] at hnat
  have htop : U32_MAX.toNat = 2 ^ 32 - 1 := rfl
  omega

theorem Stored.append (hstored : Stored calls store) (hfew : (entries calls call.key).length < 2 ^ 32 - 1) :
    store.append call.key call.value call.height = .ok (after store calls call) ∧
      Stored (calls ++ [call]) (after store calls call) := by
  have hmax := ofNat_length_ne_max hfew
  have hread : ∀ key, (after store calls call).get (length_key key) = _ := fun key =>
    get_put_entry_length_key hmax call.key call.value key call.height
  constructor
  · have hverify := WebIndexerStorage.get_u32_of_get ((hread call.key).trans (if_pos rfl))
    rw [WebIndexerStorage.append, hstored.get_length]
    dsimp only
    rw [if_neg hmax]
    exact if_pos hverify
  · intro key
    rw [hread key, entries_concat]
    by_cases heq : call.key = key
    · subst heq
      rw [if_pos rfl, if_pos rfl, if_neg (by simp), List.length_append, List.length_singleton, UInt32.ofNat_add]
      rfl
    · rw [if_neg (Ne.symm heq), if_neg heq]
      exact hstored key

end

/-- Fewer entries for each key than a length can count. -/
def Few (calls : List Call) : Prop := ∀ key, (entries calls key).length < 2 ^ 32 - 1

theorem Few.of_prefix {before calls : List Call} (hfew : Few calls) (hbefore : before <+: calls) : Few before :=
  fun key => (length_entries_le hbefore key).trans_lt (hfew key)

theorem appended_concat (calls : List Call) (call : Call) :
    appended (calls ++ [call]) =
      (appended calls).bind fun store => store.append call.key call.value call.height := by
  unfold appended
  rw [List.foldlM_append]
  simp only [List.foldlM_cons, List.foldlM_nil, bind_pure]
  rfl

theorem exists_appended {calls : List Call} (hfew : Few calls) :
    ∃ store, appended calls = .ok store ∧ Stored calls store := by
  induction calls using List.reverseRecOn with
  | nil => exact ⟨.new, rfl, fun key => rfl⟩
  | append_singleton calls call ih =>
    have hbefore : Few calls := hfew.of_prefix (List.prefix_append _ _)
    obtain ⟨store, hstore, hstored⟩ := ih hbefore
    obtain ⟨hnext, hafter⟩ := hstored.append (hbefore call.key)
    refine ⟨after store calls call, ?_, hafter⟩
    rw [appended_concat, hstore]
    exact hnext

/-- Every key, written or not, is answered by its list. -/
def Answers (calls : List Call) : Prop :=
  ∃ store, appended calls = .ok store ∧ ∀ key, store.get_latest key = .ok (entries calls key).getLast? ∧
    (store.get_length key).toNat = (entries calls key).length

/-- A key of rune balances whose length record `get_latest` takes for a sign of a bug. -/
def Searched (key : Bytes) : Prop := WebIndexerStorage.RUNES_PROTO <+: key ∧ 57 ≤ key.length

/-- An append that is not searched for, and whose height is not written over the last entry of
    another key. -/
def Clear (before : List Call) (call : Call) : Prop :=
  ¬ Searched call.key ∧
    ((entries before (call.key ++ ENTRY_HEIGHT_INFIX)).length = (entries before call.key).length + 1 →
      (entries before (call.key ++ ENTRY_HEIGHT_INFIX)).getLast? = some (to_le_bytes call.height))

/-- The position of the last entry of a key. -/
def last_index (calls : List Call) (key : Bytes) : UInt32 := UInt32.ofNat (entries calls key).length - 1

/-- The last entries of all keys are in the store. -/
def Latest (calls : List Call) (store : WebIndexerStorage) : Prop :=
  ∀ key, entries calls key ≠ [] → store.get (index_key key (last_index calls key)) = (entries calls key).getLast?

section

variable {calls : List Call} {store : WebIndexerStorage} {call : Call}

theorem last_index_concat_self : last_index (calls ++ [call]) call.key = UInt32.ofNat (entries calls call.key).length := by
  rw [last_index, entries_concat, if_pos rfl, List.length_append, List.length_singleton, UInt32.ofNat_add]
  exact UInt32.add_sub_cancel _ _

theorem last_index_concat_ne {key : Bytes} (hne : call.key ≠ key) : last_index (calls ++ [call]) key = last_index calls key := by
  rw [last_index, entries_concat, if_neg hne, last_index]

theorem last_index_eq {key : Bytes} (hne : entries calls key ≠ []) :
    last_index calls key = UInt32.ofNat ((entries calls key).length - 1) := by
  have hpos := List.length_pos_of_ne_nil hne
  obtain ⟨n, hn⟩ := Nat.exists_eq_add_one.mpr hpos
  rw [last_index, hn, Nat.add_sub_cancel, UInt32.ofNat_add]
  exact UInt32.add_sub_cancel _ _

theorem last_index_ne_max {key : Bytes} (hne : entries calls key ≠ []) (hfew : (entries calls key).length < 2 ^ 32 - 1) :
    last_index calls key ≠ U32_MAX := by
  rw [last_index_eq hne]
  exact ofNat_length_ne_max (by omega)

theorem last_index_eq_iff {key other : Bytes} (hne : entries calls key ≠ []) (hfew : Few calls) :
    last_index calls key = UInt32.ofNat (entries calls other).length ↔
      (entries calls key).length = (entries calls other).length + 1 := by
  have hpos := List.length_pos_of_ne_nil hne
  have hkey := hfew key
  have hother := hfew other
  rw [last_index_eq hne, ← UInt32.toNat_inj, UInt32.toNat_ofNat_of_lt' (by rw [UInt32.size]; omega),
    UInt32.toNat_ofNat_of_lt' (by rw [UInt32.size]; omega)]
  omega

theorem get_after_last_index (hfew : Few calls) {key : Bytes} (hne : entries calls key ≠ [])
    (hother : call.key ≠ key) :
    (after store calls call).get (index_key key (last_index calls key)) =
      if key = call.key ++ ENTRY_HEIGHT_INFIX ∧ (entries calls key).length = (entries calls call.key).length + 1 then
        some (to_le_bytes call.height)
      else store.get (index_key key (last_index calls key)) := by
  rw [after, get_put_entry_index_key (last_index_ne_max hne (hfew key))]
  refine if_congr (and_congr_right fun _ => last_index_eq_iff hne hfew) rfl (if_neg ?_)
  exact fun hsame => hother hsame.1.symm

theorem get_after_self (hfew : (entries calls call.key).length < 2 ^ 32 - 1) :
    (after store calls call).get (index_key call.key (UInt32.ofNat (entries calls call.key).length)) =
      some call.value := by
  rw [after, get_put_entry_index_key (ofNat_length_ne_max hfew),
    if_neg fun hsame => append_infix_ne call.key hsame.1, if_pos ⟨rfl, rfl⟩]

theorem Latest.append (hlatest : Latest calls store) (hfew : Few calls)
    (hclear : (entries calls (call.key ++ ENTRY_HEIGHT_INFIX)).length = (entries calls call.key).length + 1 →
      (entries calls (call.key ++ ENTRY_HEIGHT_INFIX)).getLast? = some (to_le_bytes call.height)) :
    Latest (calls ++ [call]) (after store calls call) := by
  intro key hne
  by_cases heq : call.key = key
  · subst heq
    rw [last_index_concat_self, get_after_self (hfew call.key), entries_concat, if_pos rfl, List.getLast?_concat]
  · rw [entries_concat, if_neg heq] at hne
    rw [last_index_concat_ne heq, get_after_last_index hfew hne heq, entries_concat, if_neg heq]
    split
    · next hmeet =>
      obtain ⟨rfl, hlength⟩ := hmeet
      exact (hclear hlength).symm
    · exact hlatest key hne

theorem mem_iter_fst {V : Type} {map : HashMap Bytes V} {key : Bytes} :
    key ∈ (iter map).map Prod.fst ↔ (map.lookup key).isSome = true := by
  have hkeys : key ∈ (iter map).map Prod.fst ↔ key ∈ map.keys := by
    unfold iter
    rw [((List.mergeSort_perm _ _).map Prod.fst).mem_iff, chunks.pairs_map_fst]
  rw [hkeys, AList.lookup_isSome]
  rfl

theorem Stored.mem_matches (hstored : Stored calls store) {key physical : Bytes}
    (hmem : physical ∈ store.sentinel_matches key) :
    ∃ base, physical = length_key base ∧ entries calls base ≠ [] ∧ key <+: length_key base := by
  have hfilter := List.mem_of_mem_take hmem
  obtain ⟨hin, hboth⟩ := List.mem_filter.mp hfilter
  obtain ⟨hfront, hsuffix⟩ := Bool.and_eq_true_iff.mp hboth
  obtain ⟨base, rfl⟩ := List.isSuffixOf_iff_suffix.mp hsuffix
  refine ⟨base, rfl, ?_, List.isPrefixOf_iff_prefix.mp hfront⟩
  have hsome := mem_iter_fst.mp hin
  intro hnil
  have hnone := hstored base
  rw [if_pos hnil] at hnone
  exact absurd hsome (by rw [show store.kv.lookup (base ++ to_le_bytes U32_MAX) = none from hnone]; decide)

theorem Stored.searched_of_match (hstored : Stored calls store) {key : Bytes}
    (hproto : WebIndexerStorage.RUNES_PROTO <+: key) (hlong : 60 < key.length) {physical : Bytes}
    (hmem : physical ∈ store.sentinel_matches key) : ∃ call ∈ calls, Searched call.key := by
  obtain ⟨base, -, hne, hfront⟩ := hstored.mem_matches hmem
  obtain ⟨call, hcall, rfl⟩ := entries_ne_nil.mp hne
  refine ⟨call, hcall, ?_, ?_⟩
  · have hstart : WebIndexerStorage.RUNES_PROTO <+: call.key ++ to_le_bytes U32_MAX := hproto.trans hfront
    have hlength := hfront.length_le
    rw [length_key, List.length_append, length_to_le_bytes] at hlength
    refine List.prefix_of_prefix_length_le hstart (List.prefix_append _ _) ?_
    exact (by decide : WebIndexerStorage.RUNES_PROTO.length ≤ 56).trans (by omega)
  · have hlength := hfront.length_le
    rw [length_key, List.length_append, length_to_le_bytes] at hlength
    omega

theorem Stored.answers (hstored : Stored calls store) (hlatest : Latest calls store)
    (hfits : ∀ key, (entries calls key).length < 2 ^ 32) (hclear : ∀ call ∈ calls, ¬ Searched call.key) (key : Bytes) :
    store.get_latest key = .ok (entries calls key).getLast? ∧
      (store.get_length key).toNat = (entries calls key).length := by
  have hcount := hfits key
  constructor
  · rw [WebIndexerStorage.get_latest, hstored.get_u32]
    by_cases hnil : entries calls key = []
    · rw [if_pos hnil, hnil]
      dsimp only
      split
      · next hsearch =>
        have hmatches : store.sentinel_matches key = [] := by
          apply List.eq_nil_iff_forall_not_mem.mpr
          intro physical hmem
          obtain ⟨call, hcall, hsearched⟩ :=
            hstored.searched_of_match (List.isPrefixOf_iff_prefix.mp hsearch.1) hsearch.2 hmem
          exact hclear call hcall hsearched
        have hget := hstored key
        rw [if_pos hnil] at hget
        rw [WebIndexerStorage.check_sentinels, hget, hmatches]
        rfl
      · rfl
    · have hpos := List.length_pos_of_ne_nil hnil
      have hlen : UInt32.ofNat (entries calls key).length ≠ 0 := by
        intro hzero
        have hnat := congrArg UInt32.toNat hzero
        rw [UInt32.toNat_ofNat_of_lt' (by rw [UInt32.size]; omega)] at hnat
        have hz : (0 : UInt32).toNat = 0 := rfl
        omega
      rw [if_neg hnil]
      dsimp only
      rw [if_neg hlen]
      exact congrArg Except.ok (hlatest key hnil)
  · rw [hstored.get_length, UInt32.toNat_ofNat_of_lt' (by rw [UInt32.size]; omega)]

theorem Stored.get_latest_panics (hstored : Stored calls store) {base : Bytes} (hwritten : entries calls base ≠ [])
    (hsearched : Searched base) (hunwritten : entries calls (length_key base) = []) :
    ∃ why, store.get_latest (length_key base) = .error why := by
  have hlen := hstored.get_u32 (length_key base)
  rw [if_pos hunwritten] at hlen
  have hproto : WebIndexerStorage.RUNES_PROTO.isPrefixOf (length_key base) = true :=
    List.isPrefixOf_iff_prefix.mpr (hsearched.1.trans (List.prefix_append _ _))
  have hlong : 60 < (length_key base).length := by
    rw [length_key, List.length_append, length_to_le_bytes]
    have hbase := hsearched.2
    omega
  have hget := hstored (length_key base)
  rw [if_pos hunwritten] at hget
  have hmem : length_key base ∈ ((iter store.kv).map Prod.fst).filter fun k =>
      (length_key base).isPrefixOf k && (to_le_bytes U32_MAX).isSuffixOf k := by
    refine List.mem_filter.mpr ⟨mem_iter_fst.mpr ?_, Bool.and_eq_true_iff.mpr ⟨?_, ?_⟩⟩
    · have hsome := hstored base
      rw [if_neg hwritten] at hsome
      rw [show store.kv.lookup (length_key base) = _ from hsome]
      rfl
    · exact List.isPrefixOf_iff_prefix.mpr (List.prefix_refl _)
    · exact List.isSuffixOf_iff_suffix.mpr (List.suffix_append _ _)
  rw [WebIndexerStorage.get_latest, hlen]
  dsimp only
  rw [if_pos ⟨hproto, hlong⟩, WebIndexerStorage.check_sentinels, hget]
  cases hmatches : store.sentinel_matches (length_key base) with
  | nil =>
    rw [WebIndexerStorage.sentinel_matches, List.take_eq_nil_iff] at hmatches
    rcases hmatches with hthree | hnone
    · cases hthree
    · rw [hnone] at hmem
      cases hmem
  | cons first rest => exact ⟨_, rfl⟩

theorem exists_longest (hsome : ∃ call ∈ calls, Searched call.key) :
    ∃ base, entries calls base ≠ [] ∧ Searched base ∧ entries calls (length_key base) = [] := by
  classical
  have hnonempty : ((calls.map Call.key).toFinset.filter Searched).Nonempty := by
    obtain ⟨call, hcall, hsearched⟩ := hsome
    exact ⟨call.key, Finset.mem_filter.mpr ⟨List.mem_toFinset.mpr (List.mem_map_of_mem hcall), hsearched⟩⟩
  obtain ⟨base, hbase, hmax⟩ := Finset.exists_max_image _ List.length hnonempty
  obtain ⟨hmem, hsearched⟩ := Finset.mem_filter.mp hbase
  obtain ⟨call, hcall, hkey⟩ := List.mem_map.mp (List.mem_toFinset.mp hmem)
  refine ⟨base, entries_ne_nil.mpr ⟨call, hcall, hkey⟩, hsearched, ?_⟩
  by_contra hwritten
  obtain ⟨longer, hlonger, hlongest⟩ := entries_ne_nil.mp hwritten
  have hlength : (length_key base).length = base.length + 4 := by
    rw [length_key, List.length_append, length_to_le_bytes]
  have hsearched' : Searched (length_key base) :=
    ⟨hsearched.1.trans (List.prefix_append _ _), hsearched.2.trans (by omega)⟩
  have hbound := hmax (length_key base) (Finset.mem_filter.mpr
    ⟨List.mem_toFinset.mpr (List.mem_map.mpr ⟨longer, hlonger, hlongest⟩), hsearched'⟩)
  omega

theorem exists_latest (hfew : Few calls) (hclear : ∀ before call, before ++ [call] <+: calls → Clear before call) :
    ∃ store, appended calls = .ok store ∧ Stored calls store ∧ Latest calls store := by
  induction calls using List.reverseRecOn with
  | nil => exact ⟨.new, rfl, fun key => rfl, fun key hne => absurd rfl hne⟩
  | append_singleton calls call ih =>
    have hbefore : Few calls := hfew.of_prefix (List.prefix_append _ _)
    obtain ⟨store, hstore, hstored, hlatest⟩ :=
      ih hbefore fun before other hfront => hclear before other (hfront.trans (List.prefix_append _ _))
    obtain ⟨hnext, hafter⟩ := hstored.append (hbefore call.key)
    refine ⟨after store calls call, ?_, hafter, hlatest.append hbefore (hclear calls call (List.prefix_refl _)).2⟩
    rw [appended_concat, hstore]
    exact hnext

theorem Answers.clear (hfew : Few (calls ++ [call])) (hanswers : Answers (calls ++ [call])) : Clear calls call := by
  have hbefore : Few calls := hfew.of_prefix (List.prefix_append _ _)
  obtain ⟨store, happended, hanswer⟩ := hanswers
  obtain ⟨earlier, hearlier, hstored⟩ := exists_appended hbefore
  obtain ⟨hnext, hafter⟩ := hstored.append (hbefore call.key)
  obtain rfl : after earlier calls call = store := by
    rw [appended_concat, hearlier] at happended
    exact Except.ok.inj (hnext.symm.trans happended)
  constructor
  · intro hsearched
    obtain ⟨base, hwritten, hbase, hunwritten⟩ :=
      exists_longest ⟨call, List.mem_append_right calls List.mem_cons_self, hsearched⟩
    obtain ⟨why, hpanic⟩ := hafter.get_latest_panics hwritten hbase hunwritten
    have hread := (hanswer (length_key base)).1
    rw [hpanic] at hread
    cases hread
  · intro hlength
    have hne : entries calls (call.key ++ ENTRY_HEIGHT_INFIX) ≠ [] := by
      intro hnil
      rw [hnil] at hlength
      cases hlength
    have hother := append_infix_ne call.key
    have hread := (hanswer (call.key ++ ENTRY_HEIGHT_INFIX)).1
    rw [WebIndexerStorage.get_latest, hafter.get_u32, entries_concat, if_neg hother, if_neg hne] at hread
    dsimp only at hread
    have hzero : UInt32.ofNat (entries calls (call.key ++ ENTRY_HEIGHT_INFIX)).length ≠ 0 := by
      have hcount := hbefore (call.key ++ ENTRY_HEIGHT_INFIX)
      intro hzero
      have hnat := congrArg UInt32.toNat hzero
      rw [UInt32.toNat_ofNat_of_lt' (by rw [UInt32.size]; omega), hlength] at hnat
      cases hnat
    rw [if_neg hzero] at hread
    have hget := Except.ok.inj hread
    rw [show UInt32.ofNat (entries calls (call.key ++ ENTRY_HEIGHT_INFIX)).length - 1 =
      last_index calls (call.key ++ ENTRY_HEIGHT_INFIX) from rfl, get_after_last_index hbefore hne hother,
      if_pos ⟨rfl, hlength⟩] at hget
    exact hget.symm

end

/-- Every state of a sequence of appends answers each key by its own list, exactly if no key is
    one that `get_latest` searches for and no height is written over the last entry of a key
    that ends in `/__height__/`. -/
theorem lists_answered_iff {calls : List Call} (hfew : ∀ key, (entries calls key).length < 2 ^ 32 - 1) :
    (∀ before, before <+: calls → Answers before) ↔
      ∀ before call, before ++ [call] <+: calls → Clear before call := by
  constructor
  · intro hanswers before call hfront
    exact (hanswers _ hfront).clear (Few.of_prefix hfew hfront)
  · intro hclear before hfront
    have hbefore : Few before := Few.of_prefix hfew hfront
    obtain ⟨store, hstore, hstored, hlatest⟩ :=
      exists_latest hbefore fun first call hfirst => hclear first call (hfirst.trans hfront)
    refine ⟨store, hstore, hstored.answers hlatest (fun key => (hbefore key).trans (by decide)) fun call hcall => ?_⟩
    obtain ⟨first, rest, rfl⟩ := List.append_of_mem hcall
    have hfirst : first ++ [call] <+: first ++ call :: rest := ⟨rest, by simp⟩
    exact (hclear first call (hfirst.trans hfront)).1

theorem forall_prefix_concat {calls : List Call} {holds : List Call → Call → Prop}
    (hall : ∀ n (hn : n < calls.length), holds (calls.take n) calls[n]) :
    ∀ before call, before ++ [call] <+: calls → holds before call := by
  intro before call hfront
  have hn : before.length < calls.length := by simpa using hfront.length_le
  have hbefore : before = calls.take before.length :=
    List.prefix_iff_eq_take.mp ((List.prefix_append _ _).trans hfront)
  have hcall : call = calls[before.length] := by
    obtain ⟨rest, hrest⟩ := hfront
    simp [← hrest]
  have hheld := hall before.length hn
  rwa [← hbefore, ← hcall] at hheld

theorem length_entries_le_length (calls : List Call) (key : Bytes) : (entries calls key).length ≤ calls.length :=
  List.length_filterMap_le _ _

/-- Appends to three keys. The second writes its height over the entry of `a/__height__/`, which
    it equals. -/
def separate_calls : List Call :=
  [⟨[0x61] ++ ENTRY_HEIGHT_INFIX, [7, 0, 0, 0], 1⟩, ⟨[0x61], [1], 7⟩, ⟨[0x62], [2], 7⟩, ⟨[0x61], [3], 8⟩, ⟨[0x62], [2], 9⟩]

theorem lists_answered_iff_separate :
    entries separate_calls [0x61] = [[1], [3]] ∧ entries separate_calls [0x62] = [[2], [2]] ∧
      ∀ before, before <+: separate_calls → Answers before := by
  have hfew : ∀ key, (entries separate_calls key).length < 2 ^ 32 - 1 := fun key =>
    (length_entries_le_length _ key).trans_lt (by decide)
  have hclear : ∀ n (hn : n < separate_calls.length), Clear (separate_calls.take n) separate_calls[n] := by
    unfold Clear Searched
    decide
  exact ⟨by decide, by decide, (lists_answered_iff hfew).mpr (forall_prefix_concat hclear)⟩

/-- `x` is appended to `a/__height__/`, then `y` to `a` at height 5. -/
def colliding_calls : List Call := [⟨[0x61] ++ ENTRY_HEIGHT_INFIX, [0x78], 1⟩, ⟨[0x61], [0x79], 5⟩]

/-- A balance is appended to a key of 57 bytes. -/
def searched_call : Call := ⟨WebIndexerStorage.RUNES_PROTO ++ List.replicate 44 0x30, [1], 1⟩

/-- The height of `a` is read as the last entry of `a/__height__/`, and a lookup of a key that
    was never written panics. -/
theorem lists_not_separate :
    (appended colliding_calls).bind (fun store => store.get_latest ([0x61] ++ ENTRY_HEIGHT_INFIX)) =
        .ok (some [5, 0, 0, 0]) ∧
      entries colliding_calls ([0x61] ++ ENTRY_HEIGHT_INFIX) = [[0x78]] ∧
      (∃ why, (appended [searched_call]).bind (fun store => store.get_latest (length_key searched_call.key)) =
        .error why) ∧
      entries [searched_call] (length_key searched_call.key) = [] := by
  refine ⟨by decide +kernel, by decide, ?_, by decide⟩
  have hfew : Few [searched_call] := fun key => (length_entries_le_length _ key).trans_lt (by decide)
  obtain ⟨store, hstore, hstored⟩ := exists_appended hfew
  rw [hstore]
  exact hstored.get_latest_panics (by decide) ⟨List.prefix_append _ _, by decide⟩ (by decide)

end qubitcoin.indexer_web.storage
