import Qubitcoin.IndexerFork.Storage

/-! `qubitcoin-indexer-fork/runtime.rs`: the reads of a guest through the fork storage, with the
    upstream behind it, against the last local write. -/

open qubitcoin indexer indexer_fork.storage

namespace qubitcoin.indexer_fork.runtime

/-- The write cache of the guest, then the storage. -/
def read_storage_local (write_cache : HashMap Bytes Bytes) (storage : MemStorage) (key : Bytes) : Option Bytes :=
  match write_cache.lookup key with
  | some v => some v
  | none => (storage.get_latest key).or (storage.get key)

/-- The bytes that a pointer of the guest stands for: their length is in front of them. -/
def read_arraybuffer (memory : Bytes) (ptr : Int32) : Except String Bytes :=
  if ptr < 4 then .error "invalid arraybuffer pointer"
  else
    let data_offset := ptr.toInt.toNat
    let len_offset := data_offset - 4
    if memory.length < len_offset + 4 then .error "arraybuffer length out of bounds"
    else
      let len := littleEndian.ofBytes ((memory.drop len_offset).take 4)
      if memory.length < data_offset + len then .error "arraybuffer data out of bounds"
      else .ok ((memory.drop data_offset).take len)

/-- Write to the memory of the guest. Nothing is written past its end. -/
def write_memory (memory : Bytes) (ptr : Int32) (value : Bytes) : Bytes :=
  let offset := ptr.toUInt32.toNat
  if ptr < 0 ∨ memory.length < offset + value.length then memory
  else memory.take offset ++ value ++ memory.drop (offset + value.length)

/-- What the upstream holds. A storage without an upstream has no such map. -/
abbrev Upstream := Option (Bytes → Option Bytes)

/-- A call of the upstream, which fails or answers from its map. -/
def fetch (up : Bytes → Option Bytes) (failure : Option String) (key : Bytes) : Except String (Option Bytes) :=
  match failure with
  | some e => .error e
  | none => .ok (up key)

section

variable (upstream : Upstream) (write_cache : HashMap Bytes Bytes) (storage : MemStorage)

/-- The value of a key and what reading it leaves in the caches. A failed call is logged. -/
def read (failure : Option String) (key : Bytes) : Option Bytes × MemStorage :=
  match read_storage_local write_cache storage key with
  | some v => (some v, storage)
  | none =>
    if storage.is_negative_cached key then (none, storage)
    else
      match upstream with
      | none => (none, storage)
      | some up =>
        match fetch up failure key with
        | .ok (some v) => (some v, storage.cache_upstream_hit key v)
        | .ok none => (none, storage.cache_upstream_miss key)
        | .error _ => (none, storage)

/-- The length of a value as an `i32`, zero without one. -/
def __get_len (memory : Bytes) (failure : Option String) (key_ptr : Int32) : Int32 × MemStorage :=
  match read_arraybuffer memory key_ptr with
  | .error _ => (0, storage)
  | .ok key =>
    match read upstream write_cache storage failure key with
    | (some v, storage) => (Int32.ofNat v.length, storage)
    | (none, storage) => (0, storage)

/-- Write a value to the memory of the guest, if there is one. -/
def __get (memory : Bytes) (failure : Option String) (key_ptr value_ptr : Int32) : Bytes × MemStorage :=
  match read_arraybuffer memory key_ptr with
  | .error _ => (memory, storage)
  | .ok key =>
    match read upstream write_cache storage failure key with
    | (some v, storage) => (write_memory memory value_ptr v, storage)
    | (none, storage) => (memory, storage)

end

/-- A write to the storage, a reset, or a read of the guest with an empty write cache, whose
    upstream call may fail. -/
inductive Call where
  | put (key value : Bytes)
  | append (key value : Bytes) (height : UInt32)
  | seed (key value : Bytes)
  | reset (new_projected_height : UInt32)
  | get_len (memory : Bytes) (failure : Option String) (key_ptr : Int32)
  | get (memory : Bytes) (failure : Option String) (key_ptr value_ptr : Int32)

def Call.apply (upstream : Upstream) (storage : MemStorage) : Call → MemStorage
  | .put key value => storage.put key value
  | .append key value height => storage.append key value height
  | .seed key value => storage.seed key value
  | .reset new_projected_height => .reset new_projected_height
  | .get_len memory failure key_ptr => (__get_len upstream ∅ storage memory failure key_ptr).2
  | .get memory failure key_ptr value_ptr => (__get upstream ∅ storage memory failure key_ptr value_ptr).2

def reached (upstream : Upstream) (projected_height : UInt32) (calls : List Call) : MemStorage :=
  calls.foldl (Call.apply upstream) (.new projected_height)

/-- The value of the most recent write of a key since the last reset. -/
def last_write (key : Bytes) : List Call → Option Bytes
  | [] => none
  | call :: earlier =>
    match call with
    | .put other value | .append other value _ | .seed other value =>
      if other = key then some value else last_write key earlier
    | .reset _ => none
    | .get_len .. | .get .. => last_write key earlier

/-- The value of the most recent append to a key since the last reset. -/
def last_append (key : Bytes) : List Call → Option Bytes
  | [] => none
  | call :: earlier =>
    match call with
    | .append other value _ => if other = key then some value else last_append key earlier
    | .reset _ => none
    | .put .. | .seed .. | .get_len .. | .get .. => last_append key earlier

/-- What a read has to return: the last local write, else what the upstream holds. The calls are
    listed with the most recent one first. -/
def expected (upstream : Upstream) (calls : List Call) (key : Bytes) : Option Bytes :=
  (last_write key calls).or (upstream.bind fun up => up key)

/-- The layers of a storage after calls: the histories end with the last appends, the overlay has
    the last writes over values of the upstream, and keys that the upstream lacks are cached as
    missing. -/
structure Layered (upstream : Upstream) (calls : List Call) (storage : MemStorage) : Prop where
  appends : ∀ key, ((storage.appends.lookup key).bind fun history => history.getLast?.map Prod.snd) = last_append key calls
  written : ∀ {key value}, last_write key calls = some value → storage.overlay.lookup key = some value
  cached : ∀ {key value}, last_write key calls = none → storage.overlay.lookup key = some value →
    (upstream.bind fun up => up key) = some value
  missing : ∀ {key}, storage.is_negative_cached key = true → (upstream.bind fun up => up key) = none

variable {upstream : Upstream} {calls : List Call} {storage : MemStorage}

theorem last_append_written {key value : Bytes} (happend : last_append key calls = some value) :
    ∃ written, last_write key calls = some written := by
  induction calls with
  | nil => cases happend
  | cons call earlier ih =>
    cases call with
    | put other written | seed other written =>
      rw [last_write]
      split
      · exact ⟨_, rfl⟩
      · exact ih happend
    | append other written height =>
      rw [last_write]
      rw [last_append] at happend
      split at happend
      · next heq => exact ⟨written, if_pos heq⟩
      · next hne =>
        rw [if_neg hne]
        exact ih happend
    | reset _ => cases happend
    | get_len memory failure key_ptr => exact ih happend
    | get memory failure key_ptr value_ptr => exact ih happend

theorem get_latest_eq (key : Bytes) : (storage.get_latest key).or (storage.get key) =
    ((storage.appends.lookup key).bind fun history => history.getLast?.map Prod.snd).or (storage.overlay.lookup key) := by
  have hget : storage.get key = storage.overlay.lookup key := rfl
  have hlocal : storage.local_get key = storage.overlay.lookup key := rfl
  unfold MemStorage.get_latest
  rw [hget, hlocal]
  cases storage.appends.lookup key with
  | none => cases storage.overlay.lookup key <;> rfl
  | some history =>
    rw [Option.bind_some]
    dsimp only
    cases history.getLast? with
    | none => cases storage.overlay.lookup key <;> rfl
    | some last => rfl

theorem Layered.read_storage_local (hlayered : Layered upstream calls storage) (key : Bytes) :
    runtime.read_storage_local ∅ storage key = (last_append key calls).or (storage.overlay.lookup key) := by
  rw [runtime.read_storage_local, AList.lookup_empty, ← hlayered.appends key]
  exact get_latest_eq key

theorem Layered.read (hlayered : Layered upstream calls storage) (failure : Option String) (key : Bytes) :
    Layered upstream calls (runtime.read upstream ∅ storage failure key).2 ∧
      (failure = none → (runtime.read upstream ∅ storage failure key).1 =
        (last_append key calls).or (expected upstream calls key)) := by
  unfold runtime.read
  rw [hlayered.read_storage_local key]
  cases happend : last_append key calls with
  | some value => exact ⟨hlayered, fun _ => rfl⟩
  | none =>
    rw [Option.none_or, Option.none_or]
    cases hoverlay : storage.overlay.lookup key with
    | some value =>
      refine ⟨hlayered, fun _ => ?_⟩
      unfold expected
      cases hwrite : last_write key calls with
      | some written => rw [← hoverlay, hlayered.written hwrite, Option.some_or]
      | none => rw [Option.none_or, hlayered.cached hwrite hoverlay]
    | none =>
      have hwrite : last_write key calls = none := by
        cases hwrite : last_write key calls with
        | none => rfl
        | some written => exact absurd (hlayered.written hwrite) (by rw [hoverlay]; exact nofun)
      have hexpected : expected upstream calls key = upstream.bind fun up => up key := by
        rw [expected, hwrite, Option.none_or]
      dsimp only
      rw [hexpected]
      by_cases hmissing : storage.is_negative_cached key = true
      · rw [if_pos hmissing]
        exact ⟨hlayered, fun _ => (hlayered.missing hmissing).symm⟩
      · rw [if_neg hmissing]
        cases upstream with
        | none => exact ⟨hlayered, fun _ => rfl⟩
        | some up =>
          rw [Option.bind_some]
          cases failure with
          | some e => exact ⟨hlayered, nofun⟩
          | none =>
            unfold fetch
            dsimp only
            cases hup : up key with
            | some value =>
              refine ⟨⟨hlayered.appends, fun {other written} hother => ?_, fun {other found} hother hfound => ?_,
                hlayered.missing⟩, fun _ => rfl⟩
              · by_cases heq : other = key
                · rw [heq, hwrite] at hother
                  cases hother
                · exact (AList.lookup_insert_ne heq).trans (hlayered.written hother)
              · by_cases heq : other = key
                · subst heq
                  change (storage.overlay.insert other value).lookup other = some found at hfound
                  rw [AList.lookup_insert] at hfound
                  rw [Option.bind_some, hup, hfound]
                · exact hlayered.cached hother ((AList.lookup_insert_ne heq).symm.trans hfound)
            | none =>
              refine ⟨⟨hlayered.appends, hlayered.written, hlayered.cached, fun {other} hother => ?_⟩, fun _ => rfl⟩
              by_cases heq : other = key
              · rw [heq, Option.bind_some, hup]
              · refine hlayered.missing ?_
                have hother : (((storage.negative_cache.insert key ()).lookup other).isSome) = true := hother
                rw [AList.lookup_insert_ne heq] at hother
                exact hother

theorem get_len_storage (memory : Bytes) (failure : Option String) (key_ptr : Int32) :
    (__get_len upstream ∅ storage memory failure key_ptr).2 = storage ∨
      ∃ key, (__get_len upstream ∅ storage memory failure key_ptr).2 = (read upstream ∅ storage failure key).2 := by
  unfold __get_len
  cases read_arraybuffer memory key_ptr with
  | error e => exact .inl rfl
  | ok key =>
    refine .inr ⟨key, ?_⟩
    dsimp only
    cases read upstream ∅ storage failure key with
    | mk value after => cases value <;> rfl

theorem get_storage (memory : Bytes) (failure : Option String) (key_ptr value_ptr : Int32) :
    (__get upstream ∅ storage memory failure key_ptr value_ptr).2 = storage ∨
      ∃ key, (__get upstream ∅ storage memory failure key_ptr value_ptr).2 = (read upstream ∅ storage failure key).2 := by
  unfold __get
  cases read_arraybuffer memory key_ptr with
  | error e => exact .inl rfl
  | ok key =>
    refine .inr ⟨key, ?_⟩
    dsimp only
    cases read upstream ∅ storage failure key with
    | mk value after => cases value <;> rfl

theorem Layered.write (hlayered : Layered upstream calls storage) {key value : Bytes} {call : Call}
    {after : MemStorage} (hoverlay : after.overlay = storage.overlay.insert key value)
    (hnegative : after.negative_cache = storage.negative_cache)
    (hwrite : ∀ other, last_write other (call :: calls) = if key = other then some value else last_write other calls)
    (happends : ∀ other, ((after.appends.lookup other).bind fun history => history.getLast?.map Prod.snd) =
      last_append other (call :: calls)) : Layered upstream (call :: calls) after := by
  refine ⟨happends, fun {other written} hother => ?_, fun {other found} hother hfound => ?_, fun {other} hother => ?_⟩
  · rw [hwrite] at hother
    rw [hoverlay]
    by_cases heq : key = other
    · rw [if_pos heq] at hother
      rw [← heq, AList.lookup_insert, hother]
    · rw [if_neg heq] at hother
      rw [AList.lookup_insert_ne (Ne.symm heq)]
      exact hlayered.written hother
  · rw [hwrite] at hother
    rw [hoverlay] at hfound
    by_cases heq : key = other
    · rw [if_pos heq] at hother
      cases hother
    · rw [if_neg heq] at hother
      rw [AList.lookup_insert_ne (Ne.symm heq)] at hfound
      exact hlayered.cached hother hfound
  · refine hlayered.missing ?_
    have hsame : after.is_negative_cached other = storage.is_negative_cached other := by
      rw [MemStorage.is_negative_cached, hnegative]
      rfl
    rw [← hsame]
    exact hother

theorem Layered.apply (hlayered : Layered upstream calls storage) (call : Call) :
    Layered upstream (call :: calls) (call.apply upstream storage) := by
  cases call with
  | put key value =>
    exact hlayered.write rfl rfl (fun other => rfl) fun other => hlayered.appends other
  | seed key value =>
    exact hlayered.write rfl rfl (fun other => rfl) fun other => hlayered.appends other
  | append key value height =>
    refine hlayered.write rfl rfl (fun other => rfl) fun other => ?_
    have hinsert : (storage.append key value height).appends =
        storage.appends.insert key ((storage.appends.lookup key).getD [] ++ [(height, value)]) := rfl
    change (((storage.append key value height).appends.lookup other).bind fun history =>
      history.getLast?.map Prod.snd) = _
    rw [hinsert, last_append]
    by_cases heq : key = other
    · rw [if_pos heq, ← heq, AList.lookup_insert, Option.bind_some, List.getLast?_concat, Option.map_some]
    · rw [if_neg heq, AList.lookup_insert_ne (Ne.symm heq)]
      exact hlayered.appends other
  | reset height => exact ⟨fun _ => rfl, nofun, nofun, nofun⟩
  | get_len memory failure key_ptr =>
    have hkept : Layered upstream calls (__get_len upstream ∅ storage memory failure key_ptr).2 := by
      obtain hsame | ⟨key, hread⟩ := @get_len_storage upstream storage memory failure key_ptr
      · rw [hsame]
        exact hlayered
      · rw [hread]
        exact (hlayered.read failure key).1
    exact ⟨hkept.appends, hkept.written, hkept.cached, hkept.missing⟩
  | get memory failure key_ptr value_ptr =>
    have hkept : Layered upstream calls (__get upstream ∅ storage memory failure key_ptr value_ptr).2 := by
      obtain hsame | ⟨key, hread⟩ := @get_storage upstream storage memory failure key_ptr value_ptr
      · rw [hsame]
        exact hlayered
      · rw [hread]
        exact (hlayered.read failure key).1
    exact ⟨hkept.appends, hkept.written, hkept.cached, hkept.missing⟩

theorem layered_reached (upstream : Upstream) (projected_height : UInt32) (calls : List Call) :
    Layered upstream calls.reverse (reached upstream projected_height calls) := by
  have hrun : ∀ (calls earlier : List Call) (storage : MemStorage), Layered upstream earlier storage →
      Layered upstream (calls.reverse ++ earlier) (calls.foldl (Call.apply upstream) storage) := by
    intro calls
    induction calls with
    | nil => exact fun _ _ h => h
    | cons call calls ih =>
      intro earlier storage hlayered
      have hnext := ih (call :: earlier) _ (hlayered.apply call)
      rw [List.reverse_cons, List.append_assoc, List.singleton_append]
      exact hnext
  have hnew : Layered upstream [] (.new projected_height) := ⟨fun _ => rfl, nofun, nofun, nofun⟩
  have hall := hrun calls [] _ hnew
  rwa [List.append_nil] at hall

/-- After any calls, a read whose upstream call does not fail returns the last local write, or
    what the upstream holds, exactly if the last append to the key, if any, had the value of the
    last write. The host functions hand out what is read for the key in the memory. -/
theorem read_expected_iff (upstream : Upstream) (projected_height : UInt32) (calls : List Call) (key : Bytes) :
    let storage := reached upstream projected_height calls
    ((read upstream ∅ storage none key).1 = expected upstream calls.reverse key ↔
        ∀ value, last_append key calls.reverse = some value → last_write key calls.reverse = some value) ∧
      ∀ memory key_ptr value_ptr, read_arraybuffer memory key_ptr = .ok key →
        (__get_len upstream ∅ storage memory none key_ptr).1 =
            (read upstream ∅ storage none key).1.elim 0 (fun v => Int32.ofNat v.length) ∧
          (__get upstream ∅ storage memory none key_ptr value_ptr).1 =
            (read upstream ∅ storage none key).1.elim memory (write_memory memory value_ptr) := by
  intro storage
  have hlayered : Layered upstream calls.reverse storage := layered_reached upstream projected_height calls
  refine ⟨?_, fun memory key_ptr value_ptr hkey => ⟨?_, ?_⟩⟩
  · rw [(hlayered.read none key).2 rfl]
    cases happend : last_append key calls.reverse with
    | none => exact ⟨fun _ => nofun, fun _ => Option.none_or⟩
    | some value =>
      obtain ⟨written, hwrite⟩ := last_append_written happend
      rw [expected, hwrite, Option.some_or, Option.some_or]
      constructor
      · rintro heq other ⟨⟩
        exact heq.symm
      · intro hlast
        exact (hlast value rfl).symm
  · rw [__get_len, hkey]
    dsimp only
    cases read upstream ∅ storage none key with
    | mk value after => cases value <;> rfl
  · rw [__get, hkey]
    dsimp only
    cases read upstream ∅ storage none key with
    | mk value after => cases value <;> rfl

/-- A value is appended to a key, another one is put for it, and the appended one is read. -/
theorem read_expected_fails :
    ¬∀ (upstream : Upstream) (projected_height : UInt32) (calls : List Call) (key : Bytes),
      (read upstream ∅ (reached upstream projected_height calls) none key).1 = expected upstream calls.reverse key := by
  intro hreads
  have hread := hreads none 5 [.append [0x6b] [0x76] 1, .put [0x6b] [0x77]] [0x6b]
  revert hread
  decide +kernel

end qubitcoin.indexer_fork.runtime
