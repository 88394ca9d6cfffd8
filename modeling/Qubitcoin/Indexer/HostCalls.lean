import Qubitcoin.Indexer.Storage
import Qubitcoin.IndexerFork.Reads

/-! The host functions of `qubitcoin-indexer/runtime.rs` and `qubitcoin-indexer-fork/runtime.rs`,
    which both link them twice: for synchronous and for asynchronous calls of a guest. What is
    only logged is left out, and so is the fuel of an asynchronous call, which is never used up. -/

open qubitcoin indexer indexer_fork.storage indexer_fork.runtime

namespace qubitcoin.indexer.runtime

structure HostState (S : Type) where
  input_data : Bytes
  pending_flush : Option (List (Bytes × Bytes))
  storage : S
  had_failure : Bool
  completed : Bool
  write_cache : HashMap Bytes Bytes

/-- The host state of the native runtime. -/
abbrev WasmState := HostState storage.IndexerStorage

abbrev ForkWasmState := HostState MemStorage

/-- What a host function sees: the memory of the guest and the state of the host. -/
structure Caller (S : Type) where
  memory : Bytes
  data : HostState S

/-- `as usize` of an `i32`, which keeps the sign bits. -/
def as_usize (ptr : Int32) : Nat := (ptr.toInt % 2 ^ 64).toNat

/-- `Memory::write`: an error, and nothing written, where the bytes do not fit. -/
def write (memory : Bytes) (offset : Nat) (bytes : Bytes) : Option Bytes :=
  if offset + bytes.length ≤ memory.length then some (memory.take offset ++ bytes ++ memory.drop (offset + bytes.length))
  else none

/-- What a linker makes of the result of a write to a memory. -/
abbrev Handling := String → Bytes → Option Bytes → Except Panic Bytes

/-- `.ok()`: an error is dropped. -/
def ignored : Handling := fun _ memory written => .ok (written.getD memory)

/-- `.expect()`: an error is a panic. -/
def expected : Handling := fun message _ written =>
  match written with
  | some memory => .ok memory
  | none => .error (.assertion_failed message)

section

variable {S : Type} (handle : Handling) (read : HostState S → Bytes → Option Bytes × HostState S)
  (decode : Bytes → Option (List Bytes))

def host_len (caller : Caller S) : Int32 := Int32.ofNat caller.data.input_data.length

def load_input (ptr : Int32) (caller : Caller S) : Except Panic (Caller S) := do
  let memory ← handle "FATAL: __load_input memory write failed" caller.memory
    (write caller.memory (as_usize ptr) caller.data.input_data)
  pure { caller with memory }

/-- The length of a value, zero where there is none. -/
def get_len (key_ptr : Int32) (caller : Caller S) : Int32 × Caller S :=
  match read_arraybuffer caller.memory key_ptr with
  | .error _ => (0, caller)
  | .ok key =>
    let (value, data) := read caller.data key
    ((value.map fun v => Int32.ofNat v.length).getD 0, { caller with data })

/-- Write a value to the memory of the guest, if there is one. -/
def get (key_ptr value_ptr : Int32) (caller : Caller S) : Except Panic (Caller S) :=
  match read_arraybuffer caller.memory key_ptr with
  | .error _ => .ok caller
  | .ok key =>
    let (value, data) := read caller.data key
    match value with
    | none => .ok { caller with data }
    | some value => do
      let memory ← handle "FATAL: __get memory write failed" caller.memory (write caller.memory (as_usize value_ptr) value)
      pure ⟨memory, data⟩

def flush_pairs : List Bytes → List (Bytes × Bytes)
  | key :: value :: rest => (key, value) :: flush_pairs rest
  | _ => []

def flush_handler (data_ptr : Int32) (caller : Caller S) : Caller S :=
  match read_arraybuffer caller.memory data_ptr with
  | .error _ => { caller with data.had_failure := true }
  | .ok data =>
    match decode data with
    | none => { caller with data.had_failure := true }
    | some list =>
      let pairs := flush_pairs list
      { caller with data := { caller.data with
        write_cache := pairs.foldl (fun cache pair => cache.insert pair.1 pair.2) caller.data.write_cache
        pending_flush := some (caller.data.pending_flush.getD [] ++ pairs)
        completed := true } }

def abort_handler (_msg_ptr _line _col : Int32) (caller : Caller S) : Caller S :=
  { caller with data.had_failure := true }

inductive HostCall where
  | __host_len
  | __load_input (ptr : Int32)
  | __get_len (key_ptr : Int32)
  | __get (key_ptr value_ptr : Int32)
  | __flush (data_ptr : Int32)
  | __log (ptr : Int32)
  | abort (msg_ptr file line col : Int32)

/-- What a linker does for a call: the number that is returned, if any, and what it leaves. -/
abbrev Linker (S : Type) := HostCall → Caller S → Except Panic (Option Int32 × Caller S)

def link_host_functions : Linker S := fun call caller =>
  match call with
  | .__host_len => .ok (some (host_len caller), caller)
  | .__load_input ptr => (load_input handle ptr caller).map (none, ·)
  | .__get_len key_ptr =>
    let (len, caller) := get_len read key_ptr caller
    .ok (some len, caller)
  | .__get key_ptr value_ptr => (get handle read key_ptr value_ptr caller).map (none, ·)
  | .__flush data_ptr => .ok (none, flush_handler decode data_ptr caller)
  | .__log _ => .ok (none, caller)
  | .abort msg_ptr _ line col => .ok (none, abort_handler msg_ptr line col caller)

end

/-- A value of the native runtime: staged by the guest, or stored. -/
def stored_value (data : WasmState) (key : Bytes) : Option Bytes × WasmState :=
  ((data.write_cache.lookup key).or (data.storage.get key), data)

abbrev ForkUpstream := Bytes → Except String (Option Bytes)

/-- A value of the fork runtime: a local one, or that of the upstream, whose answer is cached. -/
def fetched_value (upstream : Option ForkUpstream) (data : ForkWasmState) (key : Bytes) : Option Bytes × ForkWasmState :=
  match read_storage_local data.write_cache data.storage key with
  | some v => (some v, data)
  | none =>
    if data.storage.is_negative_cached key then (none, data)
    else
      match upstream with
      | none => (none, data)
      | some up =>
        match up key with
        | .ok (some v) => (some v, { data with storage := data.storage.cache_upstream_hit key v })
        | .ok none => (none, { data with storage := data.storage.cache_upstream_miss key })
        | .error _ => (none, data)

def link_host_functions_sync (decode : Bytes → Option (List Bytes)) : Linker storage.IndexerStorage :=
  link_host_functions ignored stored_value decode

def link_host_functions_async (decode : Bytes → Option (List Bytes)) : Linker storage.IndexerStorage :=
  link_host_functions expected stored_value decode

def link_fork_functions_sync (upstream : Option ForkUpstream) (decode : Bytes → Option (List Bytes)) : Linker MemStorage :=
  link_host_functions ignored (fetched_value upstream) decode

def link_fork_functions_async (upstream : Option ForkUpstream) (decode : Bytes → Option (List Bytes)) : Linker MemStorage :=
  link_host_functions expected (fetched_value upstream) decode

/-- What a guest does next: call a host function, or end. -/
inductive Request where
  | call (call : HostCall)
  | finish (ptr : Int32)
  | trap (error : String)

/-- A guest program, from one call of the host to the next: its own state, its memory and the
    number that the host returned lead to the next request. -/
structure Guest (G : Type) where
  resume : G → Bytes → Option Int32 → G × Bytes × Request

/-- How far a guest has come. -/
inductive Progress where
  | running
  | answered (answer : Except String Bytes)
  deriving DecidableEq

section

variable {S G : Type} (linker : Linker S) (guest : Guest G)

/-- A guest that calls the host so many times at most. -/
def run : Nat → G → Option Int32 → Caller S → Except Panic Progress
  | 0, _, _, _ => .ok .running
  | n + 1, local_state, returned, caller =>
    match guest.resume local_state caller.memory returned with
    | (local_state, memory, .call call) => do
      let (returned, caller) ← linker call { caller with memory }
      run n local_state returned caller
    | (_, memory, .finish ptr) => .ok (.answered (read_arraybuffer memory ptr))
    | (_, _, .trap error) => .ok (.answered (.error error))

/-- The state in which a view starts: the tip height stands before the input. -/
def new_state (tip_height : UInt32) (input_data : Bytes) (storage : S) : HostState S :=
  ⟨state.to_le_bytes tip_height ++ input_data, none, storage, false, false, ∅⟩

/-- A view function of a guest, up to so many host calls. -/
def call_view (n : Nat) (local_state : G) (memory : Bytes) (tip_height : UInt32) (input_data : Bytes) (storage : S) :
    Except Panic Progress :=
  run linker guest n local_state none ⟨memory, new_state tip_height input_data storage⟩

end

section

variable {S G : Type} {read : HostState S → Bytes → Option Bytes × HostState S} {decode : Bytes → Option (List Bytes)}

/-- What a call writes to the memory of the guest ends within it. -/
def Fits (read : HostState S → Bytes → Option Bytes × HostState S) (call : HostCall) (caller : Caller S) : Prop :=
  match call with
  | .__load_input ptr => as_usize ptr + caller.data.input_data.length ≤ caller.memory.length
  | .__get key_ptr value_ptr => ∀ key value, read_arraybuffer caller.memory key_ptr = .ok key →
      (read caller.data key).1 = some value → as_usize value_ptr + value.length ≤ caller.memory.length
  | _ => True

theorem expected_write_of_le {memory bytes : Bytes} {offset : Nat} (hfits : offset + bytes.length ≤ memory.length)
    (message : String) : expected message memory (write memory offset bytes) = ignored message memory (write memory offset bytes) := by
  rw [write, if_pos hfits]
  rfl

theorem expected_write_of_lt {memory bytes : Bytes} {offset : Nat} (hpast : memory.length < offset + bytes.length)
    (message : String) : expected message memory (write memory offset bytes) = .error (.assertion_failed message) := by
  rw [write, if_neg (Nat.not_le.mpr hpast)]
  rfl

theorem ignored_returns (read : HostState S → Bytes → Option Bytes × HostState S) (decode : Bytes → Option (List Bytes))
    (call : HostCall) (caller : Caller S) : ∃ result, link_host_functions ignored read decode call caller = .ok result := by
  cases call with
  | __get key_ptr value_ptr =>
    unfold link_host_functions get
    dsimp only
    split
    · exact ⟨_, rfl⟩
    · split
      · exact ⟨_, rfl⟩
      · exact ⟨_, rfl⟩
  | __host_len | __load_input _ | __get_len _ | __flush _ | __log _ | abort _ _ _ _ => exact ⟨_, rfl⟩

theorem expected_eq_ignored {call : HostCall} {caller : Caller S} (hfits : Fits read call caller) :
    link_host_functions expected read decode call caller = link_host_functions ignored read decode call caller := by
  cases call with
  | __load_input ptr =>
    unfold link_host_functions load_input
    dsimp only
    rw [expected_write_of_le hfits]
  | __get key_ptr value_ptr =>
    unfold link_host_functions get
    dsimp only
    cases hkey : read_arraybuffer caller.memory key_ptr with
    | error why => rfl
    | ok key =>
      cases hvalue : (read caller.data key).1 with
      | none => simp only [hvalue]
      | some value =>
        simp only [hvalue]
        rw [expected_write_of_le (hfits key value hkey hvalue)]
  | __host_len | __get_len _ | __flush _ | __log _ | abort _ _ _ _ => rfl

theorem expected_panics {call : HostCall} {caller : Caller S} (hpast : ¬ Fits read call caller) :
    ∃ why, link_host_functions expected read decode call caller = .error why := by
  cases call with
  | __load_input ptr =>
    refine ⟨.assertion_failed "FATAL: __load_input memory write failed", ?_⟩
    unfold link_host_functions load_input
    dsimp only
    rw [expected_write_of_lt (Nat.not_le.mp hpast)]
    rfl
  | __get key_ptr value_ptr =>
    unfold Fits at hpast
    push Not at hpast
    obtain ⟨key, value, hkey, hvalue, hlt⟩ := hpast
    refine ⟨.assertion_failed "FATAL: __get memory write failed", ?_⟩
    unfold link_host_functions get
    simp only [hkey, hvalue]
    rw [expected_write_of_lt hlt]
    rfl
  | __host_len | __get_len _ | __flush _ | __log _ | abort _ _ _ _ => exact absurd trivial hpast

theorem link_agrees_iff (call : HostCall) (caller : Caller S) :
    (∃ result, link_host_functions ignored read decode call caller = .ok result ∧
      link_host_functions expected read decode call caller = .ok result) ↔ Fits read call caller := by
  constructor
  · rintro ⟨result, _, hexpected⟩
    by_contra hpast
    obtain ⟨why, hpanics⟩ := @expected_panics S read decode call caller hpast
    rw [hpanics] at hexpected
    cases hexpected
  · intro hfits
    obtain ⟨result, hresult⟩ := ignored_returns read decode call caller
    exact ⟨result, hresult, (expected_eq_ignored hfits).trans hresult⟩

/-- The writes of all calls that a guest makes fit. -/
def AllFit (read : HostState S → Bytes → Option Bytes × HostState S) (decode : Bytes → Option (List Bytes))
    (guest : Guest G) : Nat → G → Option Int32 → Caller S → Prop
  | 0, _, _, _ => True
  | n + 1, local_state, returned, caller =>
    match guest.resume local_state caller.memory returned with
    | (local_state, memory, .call call) => Fits read call { caller with memory } ∧
        ∀ returned next, link_host_functions ignored read decode call { caller with memory } = .ok (returned, next) →
          AllFit read decode guest n local_state returned next
    | _ => True

theorem run_agrees_iff {guest : Guest G} {n : Nat} : ∀ {local_state : G} {returned : Option Int32} {caller : Caller S},
    (∃ progress, run (link_host_functions ignored read decode) guest n local_state returned caller = .ok progress ∧
      run (link_host_functions expected read decode) guest n local_state returned caller = .ok progress) ↔
        AllFit read decode guest n local_state returned caller := by
  induction n with
  | zero => exact iff_of_true ⟨.running, rfl, rfl⟩ trivial
  | succ n ih =>
    intro local_state returned caller
    unfold run AllFit
    obtain ⟨next_state, memory, request⟩ := guest.resume local_state caller.memory returned
    cases request with
    | finish ptr => exact iff_of_true ⟨_, rfl, rfl⟩ trivial
    | trap error => exact iff_of_true ⟨_, rfl, rfl⟩ trivial
    | call call =>
      dsimp only
      obtain ⟨⟨next_returned, next⟩, hresult⟩ := ignored_returns read decode call { caller with memory }
      constructor
      · rintro ⟨progress, hsync, hasync⟩
        have hfits : Fits read call { caller with memory } := by
          by_contra hpast
          obtain ⟨why, hpanics⟩ := @expected_panics S read decode call _ hpast
          rw [hpanics] at hasync
          cases hasync
        refine ⟨hfits, fun other_returned other hother => ?_⟩
        rw [expected_eq_ignored hfits, hother] at hasync
        rw [hother] at hsync
        exact ih.mp ⟨progress, hsync, hasync⟩
      · rintro ⟨hfits, hrest⟩
        obtain ⟨progress, hsync, hasync⟩ := ih.mpr (hrest _ _ hresult)
        refine ⟨progress, ?_, ?_⟩
        · rw [hresult]
          exact hsync
        · rw [expected_eq_ignored hfits, hresult]
          exact hasync

end

/-- The calls of the native and of the fork runtime, and the views that a guest computes with
    them: synchronous and asynchronous agree if and only if all writes to the memory of the guest fit. -/
theorem host_calls_agree_iff (decode : Bytes → Option (List Bytes)) (upstream : Option ForkUpstream) :
    (∀ call caller, (∃ result, link_host_functions_sync decode call caller = .ok result ∧
      link_host_functions_async decode call caller = .ok result) ↔ Fits stored_value call caller) ∧
    (∀ call caller, (∃ result, link_fork_functions_sync upstream decode call caller = .ok result ∧
      link_fork_functions_async upstream decode call caller = .ok result) ↔ Fits (fetched_value upstream) call caller) ∧
    ∀ (G : Type) (guest : Guest G) (n : Nat) (start : G) (memory : Bytes) (tip_height : UInt32) (input_data : Bytes),
      (∀ storage, (∃ progress,
        call_view (link_host_functions_sync decode) guest n start memory tip_height input_data storage = .ok progress ∧
        call_view (link_host_functions_async decode) guest n start memory tip_height input_data storage = .ok progress) ↔
          AllFit stored_value decode guest n start none ⟨memory, new_state tip_height input_data storage⟩) ∧
      (∀ storage, (∃ progress,
        call_view (link_fork_functions_sync upstream decode) guest n start memory tip_height input_data storage = .ok progress ∧
        call_view (link_fork_functions_async upstream decode) guest n start memory tip_height input_data storage = .ok progress) ↔
          AllFit (fetched_value upstream) decode guest n start none ⟨memory, new_state tip_height input_data storage⟩) :=
  ⟨link_agrees_iff, link_agrees_iff, fun _ _ _ _ _ _ _ => ⟨fun _ => run_agrees_iff, fun _ => run_agrees_iff⟩⟩

/-- The input is loaded at address minus one: the synchronous call does nothing, the
    asynchronous one panics. -/
theorem host_calls_differ :
    (∃ after, link_host_functions_sync (fun _ => none) (.__load_input (-1))
        ⟨[0, 0], new_state 0 [] storage.IndexerStorage.new⟩ = .ok (none, after) ∧ after.memory = [0, 0]) ∧
      link_host_functions_async (fun _ => none) (.__load_input (-1)) ⟨[0, 0], new_state 0 [] storage.IndexerStorage.new⟩ =
        .error (.assertion_failed "FATAL: __load_input memory write failed") ∧
      (∃ after, link_fork_functions_sync none (fun _ => none) (.__load_input (-1))
        ⟨[0, 0], new_state 0 [] (MemStorage.new 0)⟩ = .ok (none, after) ∧ after.memory = [0, 0]) ∧
      link_fork_functions_async none (fun _ => none) (.__load_input (-1)) ⟨[0, 0], new_state 0 [] (MemStorage.new 0)⟩ =
        .error (.assertion_failed "FATAL: __load_input memory write failed") :=
  ⟨⟨_, rfl, rfl⟩, rfl, ⟨_, rfl, rfl⟩, rfl⟩

end qubitcoin.indexer.runtime
