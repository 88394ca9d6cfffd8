import Qubitcoin.Devnet.Snapshot

/-! Importing a snapshot: which parts of a server it restores, and what a failed import has
    changed. -/

open qubitcoin indexer indexer_web.storage test_framework block

namespace qubitcoin.web_sys

/-- The same indexers are loaded, the tertiary ones under distinct labels. -/
structure SameConfiguration (state other : DevnetState) : Prop where
  esplora : state.esplora_storage.isSome = other.esplora_storage.isSome
  secondaries : state.additional_secondaries.map IndexerInstance.label =
    other.additional_secondaries.map IndexerInstance.label
  tertiaries : state.tertiary_indexers.map IndexerInstance.label = other.tertiary_indexers.map IndexerInstance.label
  distinct : (other.tertiary_indexers.map IndexerInstance.label).Nodup

variable {keys : Keys} {secret_key : Bytes} {state other : DevnetState}

theorem restore_chain_snapshot_of (hstate : TestChain.ReplayOf keys secret_key state.chain)
    (hother : TestChain.ReplayOf keys secret_key other.chain) :
    restore_chain keys other.chain (snapshot_of state) = .ok state.chain := by
  obtain ⟨start, genesis, rest, hnew, hconnect, htip, hblocks, -, hfits, -⟩ := hstate.spec
  obtain ⟨-, -, -, -, -, -, -, -, -, hkey⟩ := hother.spec
  have hheight : as_i32 (as_u32 state.chain.height) = state.chain.height := as_i32_as_u32 hfits
  unfold restore_chain snapshot_of
  dsimp only
  rw [hblocks, hkey]
  refine bind_eq_ok_iff.mpr ⟨start, hnew, ?_⟩
  rw [if_neg (not_not.mpr htip)]
  refine bind_eq_ok_iff.mpr ⟨state.chain, replay_of_connect_blocks 1 hconnect, ?_⟩
  rw [if_neg (not_not.mpr hheight.symm)]
  rfl

theorem filterMap_eq_mapIdx {A B : Type} {list : List A} {f : A → Option B} {g : Nat → A → B}
    (hf : ∀ i a, list[i]? = some a → f a = some (g i a)) : list.filterMap f = list.mapIdx g := by
  induction list generalizing g with
  | nil => rfl
  | cons a list ih =>
    rw [List.mapIdx_cons, List.filterMap_cons, hf 0 a rfl]
    exact congrArg (_ :: ·) (ih fun i b hb => hf (i + 1) b hb)

theorem findIdx_label {list : List IndexerInstance} (hdistinct : (list.map IndexerInstance.label).Nodup) {i : Nat}
    {label : String} (hlabel : (list.map IndexerInstance.label)[i]? = some label) :
    (list.findIdx? fun tertiary => tertiary.label == label) = some i := by
  rw [List.getElem?_map, Option.map_eq_some_iff] at hlabel
  obtain ⟨tertiary, hget, rfl⟩ := hlabel
  obtain ⟨hlt, rfl⟩ := List.getElem?_eq_some_iff.mp hget
  rw [List.findIdx?_eq_some_iff_getElem]
  refine ⟨hlt, beq_self_eq_true _, fun j hj heq => ?_⟩
  have hsame : (list.map IndexerInstance.label)[j]? = (list.map IndexerInstance.label)[i]? := by
    rw [List.getElem?_map, List.getElem?_map, List.getElem?_eq_getElem (Nat.lt_trans hj hlt),
      List.getElem?_eq_getElem hlt, Option.map_some, Option.map_some, eq_of_beq heq]
  have hlong : j < (list.map IndexerInstance.label).length := by
    rw [List.length_map]
    omega
  exact absurd ((List.getElem?_inj hlong hdistinct).mp hsame) (by omega)

/-- The stores of a state and the slots of their blobs. -/
def blobs_of (state : DevnetState) : List (Slot × Bytes) :=
  (.alkanes, state.alkanes_storage.export_bytes) ::
    (state.esplora_storage.toList.map (fun storage => (Slot.esplora, storage.export_bytes)) ++
      state.tertiary_indexers.mapIdx fun i tertiary => (.tertiary i, tertiary.storage.export_bytes))

theorem slots_snapshot_of (hsame : SameConfiguration other state) : other.slots (snapshot_of state) = blobs_of state := by
  have hesplora : (if other.esplora_storage.isSome then
      (snapshot_of state).esplora_blob.toList.map fun blob => (Slot.esplora, blob) else []) =
      state.esplora_storage.toList.map fun storage => (Slot.esplora, storage.export_bytes) := by
    rw [hsame.esplora]
    unfold snapshot_of
    cases state.esplora_storage <;> rfl
  unfold DevnetState.slots blobs_of
  rw [hesplora]
  unfold snapshot_of
  dsimp only
  rw [List.filterMap_map, filterMap_eq_mapIdx]
  intro i tertiary hget
  have hlabel : (other.tertiary_indexers.map IndexerInstance.label)[i]? = some tertiary.label := by
    rw [hsame.tertiaries, List.getElem?_map, hget]
    rfl
  have hdistinct : (other.tertiary_indexers.map IndexerInstance.label).Nodup := by
    rw [hsame.tertiaries]
    exact hsame.distinct
  dsimp only [Function.comp_apply]
  rw [findIdx_label hdistinct hlabel]
  rfl

theorem nodup_blobs_of (state : DevnetState) : ((blobs_of state).map Prod.fst).Nodup := by
  have htertiaries : (state.tertiary_indexers.mapIdx fun i tertiary =>
      (Slot.tertiary i, tertiary.storage.export_bytes)).map Prod.fst =
      (List.range state.tertiary_indexers.length).map Slot.tertiary := by
    apply List.ext_getElem
    · rw [List.length_map, List.length_mapIdx, List.length_map, List.length_range]
    · intro i hleft hright
      rw [List.getElem_map, List.getElem_mapIdx, List.getElem_map, List.getElem_range]
  unfold blobs_of
  rw [List.map_cons, List.map_append, htertiaries]
  have hrange : ((List.range state.tertiary_indexers.length).map Slot.tertiary).Nodup :=
    List.nodup_range.map fun _ _ heq => Slot.tertiary.inj heq
  cases state.esplora_storage with
  | none => simpa using hrange
  | some storage => simpa using hrange

theorem mem_blobs_of {slot : Slot} {blob : Bytes} :
    (slot, blob) ∈ blobs_of state ↔ (state.storage slot).map WebIndexerStorage.export_bytes = some blob := by
  unfold blobs_of
  rw [List.mem_cons, List.mem_append, List.mem_map, List.mem_mapIdx]
  cases slot with
  | alkanes => simp [DevnetState.storage, eq_comm]
  | esplora => simp [DevnetState.storage]
  | tertiary i =>
    simp only [DevnetState.storage, Prod.mk.injEq, reduceCtorEq, false_and, Slot.tertiary.injEq, and_false,
      exists_false, false_or, Option.map_map, Option.map_eq_some_iff, Function.comp_apply]
    constructor
    · rintro ⟨j, hlt, rfl, rfl⟩
      exact ⟨_, List.getElem?_eq_getElem hlt, rfl⟩
    · rintro ⟨tertiary, hget, rfl⟩
      obtain ⟨hlt, rfl⟩ := List.getElem?_eq_some_iff.mp hget
      exact ⟨i, hlt, rfl, rfl⟩

theorem lookup_blobs_of (state : DevnetState) (slot : Slot) :
    (chunks.fill (blobs_of state)).lookup slot = (state.storage slot).map WebIndexerStorage.export_bytes := by
  apply Option.ext
  intro blob
  rw [chunks.lookup_fill (nodup_blobs_of state), mem_blobs_of]

theorem Writable.storage (hwritable : Writable keys state) {slot : Slot} {storage : WebIndexerStorage}
    (hslot : state.storage slot = some storage) : StoreFits storage := by
  cases slot with
  | alkanes => exact Option.some.inj hslot ▸ hwritable.alkanes
  | esplora => exact hwritable.esplora storage hslot
  | tertiary i =>
    obtain ⟨tertiary, hget, rfl⟩ := Option.map_eq_some_iff.mp hslot
    exact (hwritable.tertiaries tertiary (List.mem_of_getElem? hget)).2

theorem lookup_pairs_of_export_bytes {storage : WebIndexerStorage} (hfits : StoreFits storage) :
    (chunks.fill (pairs_of storage.export_bytes)).lookup = storage.get := by
  rw [← get_import_bytes, import_bytes_export_bytes hfits, get_restored]

theorem whole_of_mem_blobs_of (hwritable : Writable keys state) {entry : Slot × Bytes}
    (hentry : entry ∈ blobs_of state) : whole entry.2 = true := by
  obtain ⟨storage, hslot, hblob⟩ := Option.map_eq_some_iff.mp (mem_blobs_of.mp hentry)
  rw [whole_iff, ← hblob, import_bytes_export_bytes (hwritable.storage hslot)]
  exact ⟨_, rfl⟩

theorem SameConfiguration.storage (hsame : SameConfiguration other state) (slot : Slot) :
    (other.storage slot).isSome = (state.storage slot).isSome := by
  cases slot with
  | alkanes => rfl
  | esplora => exact hsame.esplora
  | tertiary i =>
    have hget := congrArg (fun labels => labels[i]?.isSome) hsame.tertiaries
    rw [List.getElem?_map, List.getElem?_map, Option.isSome_map, Option.isSome_map] at hget
    unfold DevnetState.storage
    rw [Option.isSome_map, Option.isSome_map, hget]

/-- What the import of a snapshot does on a server of the same configuration: all that is in the
    snapshot is restored, and the additional secondary indexers are left as they are. -/
theorem import_snapshot_of (hstate : Reached keys secret_key state) (hother : Reached keys secret_key other)
    (hsame : SameConfiguration other state) (hwritable : Writable keys state) {data : Bytes}
    (hparse : parse_snapshot keys data = .ok (snapshot_of state)) :
    (other.import_state keys data).2 = .ok () ∧ (other.import_state keys data).1.chain = state.chain ∧
      (other.import_state keys data).1.additional_secondaries = other.additional_secondaries ∧
      (other.import_state keys data).1.tertiary_indexers.map IndexerInstance.label =
        state.tertiary_indexers.map IndexerInstance.label ∧
      ∀ slot, ((other.import_state keys data).1.storage slot).map WebIndexerStorage.get =
        (state.storage slot).map WebIndexerStorage.get := by
  have hwhole : ∀ entry ∈ blobs_of state, whole entry.2 = true := fun _ => whole_of_mem_blobs_of hwritable
  unfold DevnetState.import_state
  rw [hparse]
  dsimp only
  rw [restore_chain_snapshot_of hstate.replayOf hother.replayOf]
  dsimp only
  rw [slots_snapshot_of hsame]
  obtain ⟨hok, hattempted⟩ := import_slots_ok hwhole { other with chain := state.chain }
  obtain ⟨hchain, hsecondaries, hlabels⟩ :=
    set_all_frame ((attempted (blobs_of state)).map made) { other with chain := state.chain }
  rw [← import_slots_eq] at hchain hsecondaries hlabels
  refine ⟨hok, hchain, hsecondaries, hlabels.trans hsame.tertiaries, fun slot => ?_⟩
  rw [storage_import_slots, hattempted, lookup_blobs_of]
  have hthere : ({ other with chain := state.chain }.storage slot).isSome = (state.storage slot).isSome := by
    rw [← hsame.storage slot]
    cases slot <;> rfl
  cases hslot : state.storage slot with
  | none =>
    rw [hslot, Option.isSome_none, Option.isSome_eq_false_iff, Option.isNone_iff_eq_none] at hthere
    rw [Option.map_none, hthere]
  | some storage =>
    rw [hslot, Option.isSome_some, Option.isSome_iff_exists] at hthere
    obtain ⟨old, hold⟩ := hthere
    rw [hold]
    exact congrArg some (lookup_pairs_of_export_bytes (hwritable.storage hslot))

/-- Importing the snapshot of a state into another of the same configuration succeeds, and gives
    that state exactly when the additional secondary indexers hold the same already. -/
theorem snapshot_restores_iff (keys : Keys) (secret_key : Bytes) (state other : DevnetState)
    (hstate : Reached keys secret_key state) (hother : Reached keys secret_key other)
    (hsame : SameConfiguration other state) (hwritable : Writable keys state) :
    (∃ data, state.export_state = .ok data ∧ (other.import_state keys data).2 = .ok () ∧
      SameState (other.import_state keys data).1 state) ↔
    other.additional_secondaries.map IndexerInstance.view = state.additional_secondaries.map IndexerInstance.view := by
  obtain ⟨data, hexport, hparse⟩ := parse_export hstate.replayOf hwritable
  obtain ⟨hok, hchain, hsecondaries, hlabels, hstores⟩ := import_snapshot_of hstate hother hsame hwritable hparse
  constructor
  · rintro ⟨exported, hexported, -, hrestored⟩
    rw [hexport] at hexported
    obtain rfl := Except.ok.inj hexported
    rw [← hsecondaries]
    exact hrestored.secondaries
  · intro hequal
    refine ⟨data, hexport, hok, sameState_iff.mpr ⟨hchain, ?_, hlabels, hstores⟩⟩
    rw [hsecondaries]
    exact hequal

/-- Bitcoin's hash, and the id of the generator's key. -/
def devnet_keys : Keys where
  hash256 := crypto.sha256d
  get_id := fun _ => [0x75, 0x1e, 0x76, 0xe8, 0x19, 0x91, 0x96, 0xd4, 0x54, 0x94, 0x1c, 0x45, 0xd1, 0xb3, 0xa3, 0x23,
    0xf1, 0x43, 0x3b, 0xd6]

def devnet_key : Bytes := List.replicate 31 0 ++ [1]

theorem exists_devnet_chain : ∃ chain, TestChain.new_with_key_wpkh devnet_keys devnet_key = .ok chain ∧
    chain.height < 2 ^ 31 - 1 ∧
    ∀ block ∈ chain.blocks, block.Sendable crypto.sha256d ∧ block.encode.length < 2 ^ 32 := by
  have heval : ((TestChain.new_with_key_wpkh devnet_keys devnet_key).map fun chain =>
      chain.blocks.all fun block => decide ((Block.decode crypto.sha256d).run block.encode = .ok (block, []) ∧
        block.encode.length < 2 ^ 32)) = .ok true := by
    decide +kernel
  cases hnew : TestChain.new_with_key_wpkh devnet_keys devnet_key with
  | error e =>
    rw [hnew] at heval
    cases heval
  | ok chain =>
    rw [hnew] at heval
    obtain ⟨-, -, hzero, -, -⟩ := TestChain.new_with_key_wpkh_eq_ok hnew
    refine ⟨chain, rfl, by omega, fun block hblock => ?_⟩
    obtain ⟨hdecode, hsize⟩ := of_decide_eq_true (List.all_eq_true.mp (Except.ok.inj heval) block hblock)
    exact ⟨((Block.exact_decode crypto.sha256d).run_eq_ok.mp hdecode).1, hsize⟩

theorem exists_devnet_block {chain : TestChain} (hnew : TestChain.new_with_key_wpkh devnet_keys devnet_key = .ok chain) :
    ∃ block mined, chain.mine_block_with_coinbase_outputs devnet_keys [] [] = .ok (block, mined) ∧
      mined.height = 1 ∧ ∀ block ∈ mined.blocks, block.Sendable crypto.sha256d ∧ block.encode.length < 2 ^ 32 := by
  have heval : ((TestChain.new_with_key_wpkh devnet_keys devnet_key).bind fun chain =>
      (chain.mine_block_with_coinbase_outputs devnet_keys [] []).map fun result =>
        decide (result.2.height = 1) && result.2.blocks.all fun block =>
          decide ((Block.decode crypto.sha256d).run block.encode = .ok (block, []) ∧ block.encode.length < 2 ^ 32)) =
      .ok true := by
    decide +kernel
  rw [hnew] at heval
  cases hmine : chain.mine_block_with_coinbase_outputs devnet_keys [] [] with
  | error e =>
    rw [Except.bind, hmine] at heval
    cases heval
  | ok result =>
    rw [Except.bind, hmine] at heval
    obtain ⟨hheight, hall⟩ := Bool.and_eq_true_iff.mp (Except.ok.inj heval)
    refine ⟨result.1, result.2, rfl, of_decide_eq_true hheight, fun block hblock => ?_⟩
    obtain ⟨hdecode, hsize⟩ := of_decide_eq_true (List.all_eq_true.mp hall block hblock)
    exact ⟨((Block.exact_decode crypto.sha256d).run_eq_ok.mp hdecode).1, hsize⟩

theorem storeFits_new : StoreFits .new := by
  have hempty : iter (WebIndexerStorage.new).kv = [] := List.mergeSort_nil
  refine ⟨?_, ?_, ?_⟩
  · rw [hempty]
    decide
  · rw [hempty]
    nofun
  · rw [WebIndexerStorage.export_bytes, hempty]
    decide

def single (key value : UInt8) : WebIndexerStorage := (WebIndexerStorage.new).put [key] [value]

theorem storeFits_single (key value : UInt8) : StoreFits (single key value) := by
  have hiter : iter (single key value).kv = [([key], [value])] := List.mergeSort_singleton _
  have hfits : chunks.Fits ([key], [value]) := ⟨(by decide : 1 < 2 ^ 32), (by decide : 1 < 2 ^ 32)⟩
  refine ⟨?_, ?_, ?_⟩
  · rw [hiter]
    exact (by decide : 1 < 2 ^ 32)
  · rw [hiter]
    exact fun pair hpair => List.mem_singleton.mp hpair ▸ hfits
  · rw [WebIndexerStorage.export_bytes, hiter]
    simp only [List.length_append, littleEndian.length_toBytes, List.flatMap_singleton, chunks.write_pair, chunks.write,
      List.length_singleton]
    decide

/-- The server that is started on the new chain. -/
def devnet_server (chain : TestChain) : DevnetState := ⟨chain, .new, some .new, [], []⟩

theorem devnet_server_reached {chain : TestChain} (hnew : TestChain.new_with_key_wpkh devnet_keys devnet_key = .ok chain) :
    Reached devnet_keys devnet_key (devnet_server chain) :=
  @Reached.new _ _ true _ (bind_eq_ok_iff.mpr ⟨chain, hnew, rfl⟩)

/-- The server with a secondary and a tertiary indexer, before a block is mined. -/
def waiting_server (chain : TestChain) : DevnetState :=
  { devnet_server chain with
    additional_secondaries := [⟨"balances", .new⟩]
    tertiary_indexers := [⟨"prices", .new⟩] }

/-- The server after the block, on which all its indexers but the secondary one have written. -/
def indexed_server (mined : TestChain) : DevnetState :=
  { waiting_server mined with
    alkanes_storage := single 1 1
    esplora_storage := some (single 2 2)
    tertiary_indexers := [⟨"prices", single 3 3⟩] }

/-- The snapshot of the server with the block brings the one that waits to the same state. -/
theorem snapshot_restores_devnet : ∃ state other data, Reached devnet_keys devnet_key state ∧
    Reached devnet_keys devnet_key other ∧ state.chain.height = 1 ∧ other.chain.height = 0 ∧
    state.export_state = .ok data ∧ (other.import_state devnet_keys data).2 = .ok () ∧
    SameState (other.import_state devnet_keys data).1 state := by
  obtain ⟨chain, hnew, -, -⟩ := exists_devnet_chain
  obtain ⟨block, mined, hmine, hheight, hblocks⟩ := exists_devnet_block hnew
  obtain ⟨-, -, hzero, -, -⟩ := TestChain.new_with_key_wpkh_eq_ok hnew
  have hother : Reached devnet_keys devnet_key (waiting_server chain) :=
    ((devnet_server_reached hnew).added_secondary "balances").added_tertiary "prices"
  have hstate : Reached devnet_keys devnet_key (indexed_server mined) := hother.mined hmine rfl rfl rfl
  have hlow : mined.height < 2 ^ 31 - 1 := by omega
  have hwritable : Writable devnet_keys (indexed_server mined) :=
    ⟨hlow, hblocks, storeFits_single 1 1, fun _ hstore => Option.some.inj hstore ▸ storeFits_single 2 2,
      (by decide : 1 < 2 ^ 32), fun _ hmem => List.mem_singleton.mp hmem ▸ ⟨by decide, storeFits_single 3 3⟩⟩
  obtain ⟨data, hexport, hrest⟩ := (snapshot_restores_iff devnet_keys devnet_key (indexed_server mined)
    (waiting_server chain) hstate hother ⟨rfl, rfl, rfl, List.nodup_singleton _⟩ hwritable).mpr rfl
  exact ⟨_, _, data, hstate, hother, hheight, hzero, hexport, hrest⟩

/-- One server has mined a block, on which its secondary indexer has written a key; the snapshot
    is that of the server before. -/
theorem secondary_not_restored : ∃ state other data, Reached devnet_keys devnet_key state ∧
    Reached devnet_keys devnet_key other ∧ SameConfiguration other state ∧ Writable devnet_keys state ∧
    state.export_state = .ok data ∧ (other.import_state devnet_keys data).2 = .ok () ∧
    ¬ SameState (other.import_state devnet_keys data).1 state := by
  obtain ⟨chain, hnew, hheight, hblocks⟩ := exists_devnet_chain
  obtain ⟨block, mined, hmine, -, -⟩ := exists_devnet_block hnew
  have hbefore := (devnet_server_reached hnew).added_secondary "balances"
  have hwritable : Writable devnet_keys
      { devnet_server chain with additional_secondaries := [⟨"balances", .new⟩] } :=
    ⟨hheight, hblocks, storeFits_new, fun _ hstore => Option.some.inj hstore ▸ storeFits_new, (by decide : 0 < 2 ^ 32), nofun⟩
  let after : DevnetState :=
    { devnet_server mined with additional_secondaries := [⟨"balances", (WebIndexerStorage.new).put [1] [1]⟩] }
  have hafter : Reached devnet_keys devnet_key after := hbefore.mined hmine rfl rfl rfl
  have hsame : SameConfiguration after { devnet_server chain with additional_secondaries := [⟨"balances", .new⟩] } :=
    ⟨rfl, rfl, rfl, List.nodup_nil⟩
  obtain ⟨data, hexport, hparse⟩ := parse_export hbefore.replayOf hwritable
  obtain ⟨hok, -, hsecondaries, -, -⟩ := import_snapshot_of hbefore hafter hsame hwritable hparse
  refine ⟨_, after, data, hbefore, hafter, hsame, hwritable, hexport, hok, fun hstate => ?_⟩
  have hview := hstate.secondaries
  rw [hsecondaries] at hview
  have hget := congrFun (Prod.mk.inj (List.cons.inj hview).1).2 [1]
  exact absurd hget (by decide)

/-- The blocks of a snapshot rebuild the chain of this server exactly when they are its blocks,
    or when there are none. -/
theorem restored_chain_eq_iff (hreplay : TestChain.ReplayOf keys secret_key state.chain) {snapshot : Snapshot}
    {chain : TestChain} (hrestore : restore_chain keys state.chain snapshot = .ok chain) :
    chain = state.chain ↔ snapshot.blocks = [] ∨ snapshot.blocks.tail = state.chain.blocks.tail := by
  obtain ⟨start, first, rest, hnew, hconnect, -, hblocks, -, -, hkey⟩ := hreplay.spec
  obtain ⟨genesis, hgenesis, hzero, -, -⟩ := TestChain.new_with_key_wpkh_eq_ok hnew
  unfold restore_chain at hrestore
  rw [hkey, hnew] at hrestore
  cases hsnapshot : snapshot.blocks with
  | nil =>
    rw [hsnapshot] at hrestore
    exact ⟨fun _ => .inl rfl, fun _ => (Except.ok.inj hrestore).symm⟩
  | cons other_genesis others =>
    rw [hsnapshot] at hrestore
    obtain ⟨_, hstarted, hrestore⟩ := bind_eq_ok_iff.mp hrestore
    obtain rfl := Except.ok.inj hstarted
    split at hrestore
    · cases hrestore
    · obtain ⟨replayed, hreplayed, hrestore⟩ := bind_eq_ok_iff.mp hrestore
      split at hrestore
      · cases hrestore
      · obtain rfl := Except.ok.inj hrestore
        have hothers := connect_blocks_of_replay hreplayed
        have hstart : IntType.i32.fits start.height := by
          rw [hzero]
          decide
        have hall := (TestChain.connect_blocks_eq_ok hstart hothers).1
        rw [hblocks, List.tail_cons, List.tail_cons]
        constructor
        · rintro rfl
          rw [hgenesis, hblocks] at hall
          exact .inr (List.cons.inj hall).2.symm
        · rintro (hnil | rfl)
          · cases hnil
          · rw [hconnect] at hothers
            exact (Except.ok.inj hothers).symm

/-- An import that gets as far as its stores finds the chain and the stores it tries as it would
    leave them. -/
def Unaffected (keys : Keys) (state : DevnetState) (data : Bytes) : Prop :=
  ∀ snapshot chain, parse_snapshot keys data = .ok snapshot → restore_chain keys state.chain snapshot = .ok chain →
    (snapshot.blocks = [] ∨ snapshot.blocks.tail = state.chain.blocks.tail) ∧
      ∀ slot blob, (chunks.fill (attempted (state.slots snapshot))).lookup slot = some blob →
        ∃ storage, state.storage slot = some storage ∧ HoldsPairs storage blob

theorem storage_isSome_of_mem_slots {snapshot : Snapshot} {slot : Slot} {blob : Bytes}
    (hmem : (slot, blob) ∈ state.slots snapshot) : (state.storage slot).isSome = true := by
  rcases List.mem_cons.mp hmem with halkanes | hmem
  · obtain ⟨rfl, rfl⟩ := Prod.mk.inj halkanes
    rfl
  · rcases List.mem_append.mp hmem with hesplora | htertiary
    · split at hesplora
      · next hsome =>
        obtain ⟨_, -, heq⟩ := List.mem_map.mp hesplora
        obtain ⟨rfl, rfl⟩ := Prod.mk.inj heq
        exact hsome
      · cases hesplora
    · obtain ⟨entry, -, hentry⟩ := List.mem_filterMap.mp htertiary
      obtain ⟨i, hfind, heq⟩ := Option.map_eq_some_iff.mp hentry
      obtain ⟨rfl, rfl⟩ := Prod.mk.inj heq
      obtain ⟨hlt, -⟩ := List.findIdx?_eq_some_iff_getElem.mp hfind
      unfold DevnetState.storage
      dsimp only
      rw [List.getElem?_eq_getElem hlt]
      rfl

theorem attempted_subset (list : List (Slot × Bytes)) : ∀ entry ∈ attempted list, entry ∈ list := by
  induction list with
  | nil => nofun
  | cons first rest ih =>
    intro entry hentry
    rw [attempted] at hentry
    split at hentry
    · rcases List.mem_cons.mp hentry with rfl | hrest
      · exact List.mem_cons_self
      · exact List.mem_cons_of_mem _ (ih entry hrest)
    · rw [List.mem_singleton.mp hentry]
      exact List.mem_cons_self

theorem sameState_import_slots_iff {snapshot : Snapshot} {chain : TestChain} :
    SameState (DevnetState.import_slots (state.slots snapshot) { state with chain }).1 state ↔
      chain = state.chain ∧ ∀ slot blob, (chunks.fill (attempted (state.slots snapshot))).lookup slot = some blob →
        ∃ storage, state.storage slot = some storage ∧ HoldsPairs storage blob := by
  obtain ⟨hchain, hsecondaries, hlabels⟩ :=
    set_all_frame ((attempted (state.slots snapshot)).map made) { state with chain }
  rw [← import_slots_eq] at hchain hsecondaries hlabels
  have hstorage : ∀ slot, { state with chain }.storage slot = state.storage slot := fun slot => by cases slot <;> rfl
  rw [sameState_iff, hchain, hsecondaries, hlabels]
  constructor
  · rintro ⟨hsame, -, -, hstores⟩
    refine ⟨hsame, fun slot blob hblob => ?_⟩
    have hthere := storage_isSome_of_mem_slots (attempted_subset _ _ (chunks.mem_of_lookup_fill hblob))
    obtain ⟨storage, hslot⟩ := Option.isSome_iff_exists.mp hthere
    have hstore := hstores slot
    rw [storage_import_slots, hblob, hstorage, hslot] at hstore
    exact ⟨storage, hslot, holdsPairs_iff.mpr (Option.some.inj hstore).symm⟩
  · rintro ⟨hsame, hblobs⟩
    refine ⟨hsame, rfl, rfl, fun slot => ?_⟩
    rw [storage_import_slots, hstorage]
    cases hblob : (chunks.fill (attempted (state.slots snapshot))).lookup slot with
    | none => rfl
    | some blob =>
      obtain ⟨storage, hslot, hholds⟩ := hblobs slot blob hblob
      rw [hslot]
      exact congrArg some (holdsPairs_iff.mp hholds).symm

/-- A failed import of a blob has replaced the store by the pairs before the cut. A failed import
    of a snapshot changes nothing when the snapshot is not read to its end or its blocks do not
    replay; later failures leave what has been replaced by then. -/
theorem failed_import_unchanged_iff (store : WebIndexerStorage) (keys : Keys) (secret_key : Bytes) (state : DevnetState)
    (data : Bytes) (e : String) :
    ((WebIndexerStorage.import_bytes data).2 = .error e →
      ((WebIndexerStorage.import_bytes data).1.get = store.get ↔ HoldsPairs store data)) ∧
    (Reached keys secret_key state → (state.import_state keys data).2 = .error (.invalid e) →
      (SameState (state.import_state keys data).1 state ↔ Unaffected keys state data)) := by
  refine ⟨fun _ => by rw [holdsPairs_iff, get_import_bytes, eq_comm], fun hreached _ => ?_⟩
  have hrefl : SameState state state := ⟨rfl, rfl, rfl, rfl, rfl⟩
  unfold DevnetState.import_state Unaffected
  cases hparse : parse_snapshot keys data with
  | error message => exact ⟨fun _ _ _ hsnapshot => (nomatch hsnapshot), fun _ => hrefl⟩
  | ok snapshot =>
    dsimp only
    cases hrestore : restore_chain keys state.chain snapshot with
    | error why =>
      refine ⟨fun _ other chain hother hchain => ?_, fun _ => hrefl⟩
      obtain rfl := Except.ok.inj hother
      rw [hrestore] at hchain
      cases hchain
    | ok chain =>
      dsimp only
      rw [sameState_import_slots_iff, restored_chain_eq_iff hreached.replayOf hrestore]
      constructor
      · intro hsame other other_chain hother hchain
        obtain rfl := Except.ok.inj hother
        exact hsame
      · intro hall
        exact hall snapshot chain rfl hrestore

/-- The pair of a store of one key, in a blob that announces some pairs. -/
def single_blob (count : Nat) (key value : UInt8) : Bytes :=
  littleEndian.toBytes 4 count ++ chunks.write_pair ([key], [value])

/-- A snapshot without blocks: a whole blob for the first store, one for the second that is cut short after a pair. -/
def second_cut_snapshot : Bytes :=
  MAGIC ++ u32_bytes 1 ++ u32_bytes 0 ++ u32_bytes 0 ++ chunks.write (single_blob 1 1 1) ++
    chunks.write (single_blob 2 2 2) ++ u32_bytes 0

theorem holdsPairs_single {count : Nat} (hcount : count = 1 ∨ count = 2) (key value : UInt8) :
    HoldsPairs (single key value) (single_blob count key value) := by
  have hfits : ∀ pair ∈ [([key], [value])], chunks.Fits pair := fun pair hpair =>
    List.mem_singleton.mp hpair ▸ ⟨(by decide : 1 < 2 ^ 32), (by decide : 1 < 2 ^ 32)⟩
  have hcut : ∀ pair more, chunks.Fits pair → [] ≠ chunks.write_pair pair ++ more := by
    intro pair more _ hnil
    have hlength := congrArg List.length hnil
    simp only [List.length_nil, List.length_append, chunks.write_pair, chunks.write, littleEndian.length_toBytes] at hlength
    omega
  refine ⟨[([key], [value])], .inr ⟨count, chunks.write_pair ([key], [value]), by omega, rfl, hfits, [], ?_, ?_⟩,
    fun query => chunks.lookup_fill_eq [([key], [value])] query⟩
  · rw [List.append_nil, List.flatMap_singleton]
  · obtain rfl | rfl := hcount
    · exact .inl rfl
    · exact .inr ⟨Nat.lt_succ_self 1, hcut⟩

/-- The stores hold what stands before the cuts. -/
theorem failed_import_second_cut : (WebIndexerStorage.import_bytes (single_blob 2 1 1)).2 = .error "truncated key length" ∧
    (WebIndexerStorage.import_bytes (single_blob 2 1 1)).1.get = (single 1 1).get ∧
    ∃ state, Reached devnet_keys devnet_key state ∧ state.chain.height = 1 ∧
      (state.import_state devnet_keys second_cut_snapshot).2 =
        .error (.invalid "importState: esplora import: truncated key length") ∧
      SameState (state.import_state devnet_keys second_cut_snapshot).1 state := by
  obtain ⟨chain, hnew, -, -⟩ := exists_devnet_chain
  obtain ⟨block, mined, hmine, hheight, -⟩ := exists_devnet_block hnew
  have hwaiting : Reached devnet_keys devnet_key (waiting_server chain) :=
    ((devnet_server_reached hnew).added_secondary "balances").added_tertiary "prices"
  have hreached : Reached devnet_keys devnet_key (indexed_server mined) := hwaiting.mined hmine rfl rfl rfl
  have hcut : (WebIndexerStorage.import_bytes (single_blob 2 1 1)).2 = .error "truncated key length" := rfl
  have hfails : ((indexed_server mined).import_state devnet_keys second_cut_snapshot).2 =
      .error (.invalid "importState: esplora import: truncated key length") := rfl
  refine ⟨hcut, ((failed_import_unchanged_iff (single 1 1) devnet_keys devnet_key (indexed_server mined)
    (single_blob 2 1 1) _).1 hcut).mpr (holdsPairs_single (.inr rfl) 1 1), _, hreached, hheight, hfails, ?_⟩
  refine ((failed_import_unchanged_iff .new devnet_keys devnet_key (indexed_server mined) second_cut_snapshot _).2 hreached
    hfails).mpr fun snapshot chain hparse _ => ?_
  have hsnapshot : parse_snapshot devnet_keys second_cut_snapshot =
      .ok ⟨0, [], single_blob 1 1 1, some (single_blob 2 2 2), []⟩ := rfl
  rw [hsnapshot] at hparse
  cases hparse
  refine ⟨.inl rfl, fun slot blob hblob => ?_⟩
  have hslots : attempted ((indexed_server mined).slots ⟨0, [], single_blob 1 1 1, some (single_blob 2 2 2), []⟩) =
      [(.alkanes, single_blob 1 1 1), (.esplora, single_blob 2 2 2)] := rfl
  have hmem := chunks.mem_of_lookup_fill hblob
  rw [hslots] at hmem
  obtain heq | hmem := List.mem_cons.mp hmem
  · cases heq
    exact ⟨_, rfl, holdsPairs_single (.inl rfl) 1 1⟩
  · cases List.mem_singleton.mp hmem
    exact ⟨_, rfl, holdsPairs_single (.inr rfl) 2 2⟩

/-- A snapshot without blocks, whose blob for the first store is cut short. -/
def cut_snapshot : Bytes :=
  MAGIC ++ u32_bytes 1 ++ u32_bytes 0 ++ u32_bytes 0 ++ chunks.write [1, 0, 0, 0] ++ u32_bytes 0 ++ u32_bytes 0

/-- The bytes announce one pair and end: the store is emptied, alone and in a server. -/
theorem failed_import_clears : (WebIndexerStorage.import_bytes [1, 0, 0, 0]).2 = .error "truncated key length" ∧
    (WebIndexerStorage.import_bytes [1, 0, 0, 0]).1.get ≠ ((WebIndexerStorage.new).put [1] [1]).get ∧
    ∃ state, Reached devnet_keys devnet_key state ∧
      (state.import_state devnet_keys cut_snapshot).2 =
        .error (.invalid "importState: alkanes import: truncated key length") ∧
      ¬ SameState (state.import_state devnet_keys cut_snapshot).1 state := by
  obtain ⟨chain, hnew, -, -⟩ := exists_devnet_chain
  obtain ⟨block, mined, hmine, -, -⟩ := exists_devnet_block hnew
  let after : DevnetState := { devnet_server mined with alkanes_storage := (WebIndexerStorage.new).put [1] [1] }
  have hafter : Reached devnet_keys devnet_key after := (devnet_server_reached hnew).mined hmine rfl rfl rfl
  refine ⟨rfl, fun hget => absurd (congrFun hget [1]) (by decide), after, hafter, rfl, fun hsame => ?_⟩
  have hcleared : none = ((WebIndexerStorage.new).put [1] [1]).get [1] := congrFun hsame.alkanes [1]
  exact absurd hcleared (by decide)

end qubitcoin.web_sys
