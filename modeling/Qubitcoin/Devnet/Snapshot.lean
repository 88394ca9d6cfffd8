import Qubitcoin.Devnet.Server

/-! Snapshots of a devnet server: what an import restores, and what a failed import leaves. -/

open qubitcoin indexer indexer_web.storage test_framework block

namespace qubitcoin.web_sys

/-- The label of an indexer and the contents of its store. -/
def IndexerInstance.view (self : IndexerInstance) : String × (Bytes → Option Bytes) := (self.label, self.storage.get)

/-- The chain and the contents of all stores are the same. -/
structure SameState (state other : DevnetState) : Prop where
  chain : state.chain = other.chain
  alkanes : state.alkanes_storage.get = other.alkanes_storage.get
  esplora : state.esplora_storage.map WebIndexerStorage.get = other.esplora_storage.map WebIndexerStorage.get
  secondaries : state.additional_secondaries.map IndexerInstance.view =
    other.additional_secondaries.map IndexerInstance.view
  tertiaries : state.tertiary_indexers.map IndexerInstance.view = other.tertiary_indexers.map IndexerInstance.view

/-- The states of a server with a key. A mined block is indexed, or not to its end, which
    changes the contents of the stores; indexers are added at any time. -/
inductive Reached (keys : Keys) (secret_key : Bytes) : DevnetState → Prop where
  | new {esplora : Bool} {state : DevnetState} (hnew : DevnetState.new keys secret_key esplora = .ok state) :
      Reached keys secret_key state
  | mined {state next : DevnetState} (hbefore : Reached keys secret_key state) {txs : List transaction.Transaction}
      {outputs : List transaction.TxOut} {block : Block}
      (hmine : state.chain.mine_block_with_coinbase_outputs keys txs outputs = .ok (block, next.chain))
      (hesplora : next.esplora_storage.isSome = state.esplora_storage.isSome)
      (hsecondaries : next.additional_secondaries.map IndexerInstance.label =
        state.additional_secondaries.map IndexerInstance.label)
      (htertiaries : next.tertiary_indexers.map IndexerInstance.label =
        state.tertiary_indexers.map IndexerInstance.label) : Reached keys secret_key next
  | added_secondary {state : DevnetState} (hbefore : Reached keys secret_key state) (label : String) :
      Reached keys secret_key { state with additional_secondaries := state.additional_secondaries ++ [⟨label, .new⟩] }
  | added_tertiary {state : DevnetState} (hbefore : Reached keys secret_key state) (label : String) :
      Reached keys secret_key { state with tertiary_indexers := state.tertiary_indexers ++ [⟨label, .new⟩] }
  | imported {state : DevnetState} (hbefore : Reached keys secret_key state) (data : Bytes) :
      Reached keys secret_key (state.import_state keys data).1

section

variable {keys : Keys}

theorem connect_blocks_of_replay {i : Nat} {blocks : List Block} {start chain : TestChain}
    (hreplay : replay_blocks keys i blocks start = .ok chain) : TestChain.connect_blocks keys blocks start = .ok chain := by
  induction blocks generalizing i start with
  | nil => exact hreplay
  | cons block rest ih =>
    obtain ⟨next, hnext, hrest⟩ := bind_eq_ok_iff.mp hreplay
    exact bind_eq_ok_iff.mpr ⟨next, mapError_eq_ok.mp hnext, ih hrest⟩

theorem replay_of_connect_blocks (i : Nat) {blocks : List Block} {start chain : TestChain}
    (hconnect : TestChain.connect_blocks keys blocks start = .ok chain) :
    replay_blocks keys i blocks start = .ok chain := by
  induction blocks generalizing i start with
  | nil => exact hconnect
  | cons block rest ih =>
    obtain ⟨next, hnext, hrest⟩ := bind_eq_ok_iff.mp hconnect
    exact bind_eq_ok_iff.mpr ⟨next, mapError_eq_ok.mpr hnext, ih (i + 1) hrest⟩

theorem restore_chain_eq_ok {chain restored : TestChain} {snapshot : Snapshot}
    (hrestore : restore_chain keys chain snapshot = .ok restored) :
    restored = chain ∨ TestChain.ReplayOf keys chain.coinbase_key restored := by
  unfold restore_chain at hrestore
  split at hrestore
  · exact .inl (Except.ok.inj hrestore).symm
  · obtain ⟨start, hstart, hrestore⟩ := bind_eq_ok_iff.mp hrestore
    split at hrestore
    · cases hrestore
    · obtain ⟨replayed, hreplay, hrestore⟩ := bind_eq_ok_iff.mp hrestore
      split at hrestore
      · cases hrestore
      · obtain rfl := Except.ok.inj hrestore
        exact .inr ⟨start, _, hstart, connect_blocks_of_replay hreplay⟩

theorem DevnetState.chain_set_storage (state : DevnetState) (storage : WebIndexerStorage) (slot : Slot) :
    (state.set_storage storage slot).chain = state.chain := by
  cases slot <;> rfl

theorem DevnetState.chain_import_slots (list : List (Slot × Bytes)) (state : DevnetState) :
    (import_slots list state).1.chain = state.chain := by
  induction list generalizing state with
  | nil => rfl
  | cons entry rest ih =>
    rw [import_slots]
    dsimp only
    split
    · exact state.chain_set_storage _ _
    · rw [ih]
      exact state.chain_set_storage _ _

theorem DevnetState.chain_import_state (state : DevnetState) (data : Bytes) :
    (state.import_state keys data).1.chain = state.chain ∨
      TestChain.ReplayOf keys state.chain.coinbase_key (state.import_state keys data).1.chain := by
  unfold import_state
  split
  · exact .inl rfl
  · split
    · exact .inl rfl
    · next chain hrestore =>
      rw [chain_import_slots]
      exact restore_chain_eq_ok hrestore

theorem Reached.replayOf {secret_key : Bytes} {state : DevnetState} (hreached : Reached keys secret_key state) :
    TestChain.ReplayOf keys secret_key state.chain := by
  induction hreached with
  | new hnew =>
    obtain ⟨chain, hchain, hstate⟩ := bind_eq_ok_iff.mp hnew
    obtain rfl := Except.ok.inj hstate
    exact ⟨chain, [], hchain, rfl⟩
  | mined _ hmine _ _ _ ih => exact ih.mine hmine
  | added_secondary _ _ ih => exact ih
  | added_tertiary _ _ ih => exact ih
  | @imported state _ data ih =>
    obtain ⟨-, -, -, -, -, -, -, -, -, hkey⟩ := ih.spec
    rcases state.chain_import_state data with hsame | hrestored
    · rw [hsame]
      exact ih
    · rwa [hkey] at hrestored

/-- The pairs of a store, and its blob, have lengths of 32 bits. -/
structure StoreFits (storage : WebIndexerStorage) : Prop where
  count : (iter storage.kv).length < 2 ^ 32
  pairs : ∀ pair ∈ iter storage.kv, chunks.Fits pair
  size : storage.export_bytes.length < 2 ^ 32

/-- The blocks have a wire form, and all numbers that a snapshot writes have 32 bits. -/
structure Writable (keys : Keys) (state : DevnetState) : Prop where
  height : state.chain.height < 2 ^ 31 - 1
  blocks : ∀ block ∈ state.chain.blocks, block.Sendable keys.hash256 ∧ block.encode.length < 2 ^ 32
  alkanes : StoreFits state.alkanes_storage
  esplora : ∀ storage, state.esplora_storage = some storage → StoreFits storage
  tertiary_count : state.tertiary_indexers.length < 2 ^ 32
  tertiaries : ∀ tertiary ∈ state.tertiary_indexers,
    (utf8.bytes tertiary.label).length < 2 ^ 32 ∧ StoreFits tertiary.storage

/-- The store that an import of a blob makes. -/
def restored (storage : WebIndexerStorage) : WebIndexerStorage :=
  ⟨chunks.fill (iter storage.kv), (iter storage.kv).length⟩

theorem get_restored (storage : WebIndexerStorage) : (restored storage).get = storage.get := by
  funext key
  exact chunks.lookup_fill_pairs (List.mergeSort_perm _ _) key

theorem import_bytes_export_bytes {storage : WebIndexerStorage} (hfits : StoreFits storage) :
    WebIndexerStorage.import_bytes storage.export_bytes = (restored storage, .ok (iter storage.kv).length) := by
  have hpairs := chunks.read_pairs_write_pair hfits.pairs []
  rw [List.append_nil] at hpairs
  rw [WebIndexerStorage.import_bytes, WebIndexerStorage.export_bytes, chunks.read_nat_toBytes hfits.count]
  dsimp only
  rw [hpairs]
  rfl

theorem export_bytes_ne_nil (storage : WebIndexerStorage) : storage.export_bytes ≠ [] := by
  intro hnil
  have hlength := congrArg List.length hnil
  rw [WebIndexerStorage.export_bytes, List.length_append, littleEndian.length_toBytes, List.length_nil] at hlength
  omega

theorem export_blocks_eq {chain : TestChain} {k n : Nat} (hlength : k + n = chain.blocks.length) :
    export_blocks chain ((List.range' k n).map Int.ofNat) = .ok ((chain.blocks.drop k).map Block.encode) := by
  induction n generalizing k with
  | zero =>
    rw [List.drop_eq_nil_of_le (by omega)]
    rfl
  | succ n ih =>
    have hlt : k < chain.blocks.length := by omega
    have hblock : chain.block_at (Int.ofNat k) = some chain.blocks[k] := by
      rw [TestChain.block_at, if_neg (by simp)]
      exact List.getElem?_eq_getElem hlt
    rw [List.range'_succ, List.map_cons, export_blocks, hblock]
    dsimp only
    rw [ih (by omega), List.drop_eq_getElem_cons hlt]
    rfl

theorem parse_blocks_write {blocks : List Block}
    (hblocks : ∀ block ∈ blocks, block.Sendable keys.hash256 ∧ block.encode.length < 2 ^ 32) (i : Nat) (rest : Bytes) :
    parse_blocks keys blocks.length i ((blocks.map Block.encode).flatMap chunks.write ++ rest) = .ok (blocks, rest) := by
  induction blocks generalizing i with
  | nil => rfl
  | cons block blocks ih =>
    obtain ⟨hsendable, hsize⟩ := hblocks block List.mem_cons_self
    have hdecode : (Block.decode keys.hash256).run block.encode = .ok (block, []) :=
      (Block.exact_decode keys.hash256).run_eq_ok.mpr ⟨hsendable, (List.append_nil _).symm⟩
    rw [List.map_cons, List.flatMap_cons, List.append_assoc, List.length_cons, parse_blocks, chunks.read_write hsize]
    dsimp only
    rw [hdecode]
    dsimp only
    rw [ih (fun other hother => hblocks other (List.mem_cons_of_mem _ hother))]
    rfl

theorem parse_tertiaries_write {tertiaries : List IndexerInstance}
    (hfits : ∀ tertiary ∈ tertiaries, (utf8.bytes tertiary.label).length < 2 ^ 32 ∧ StoreFits tertiary.storage)
    (i : Nat) :
    parse_tertiaries tertiaries.length i (tertiaries.flatMap fun tertiary =>
        chunks.write_pair (utf8.bytes tertiary.label, tertiary.storage.export_bytes)) =
      .ok (tertiaries.map fun tertiary => (tertiary.label, tertiary.storage.export_bytes)) := by
  induction tertiaries generalizing i with
  | nil => rfl
  | cons tertiary tertiaries ih =>
    obtain ⟨hlabel, hstore⟩ := hfits tertiary List.mem_cons_self
    rw [List.flatMap_cons, List.length_cons, parse_tertiaries, chunks.write_pair, List.append_assoc,
      chunks.read_write hlabel]
    dsimp only
    rw [utf8.ofBytes?_bytes]
    dsimp only
    rw [chunks.read_write hstore.size]
    dsimp only
    rw [ih (fun other hother => hfits other (List.mem_cons_of_mem _ hother))]
    rfl

theorem parse_esplora_write {storage : Option WebIndexerStorage} (hfits : ∀ s, storage = some s → StoreFits s)
    (rest : Bytes) :
    parse_esplora (export_esplora storage ++ rest) = .ok (storage.map WebIndexerStorage.export_bytes, rest) := by
  cases storage with
  | none =>
    have hread : chunks.read (u32_bytes 0 ++ rest) = .ok ([], rest) := chunks.read_write (by decide) rest
    rw [export_esplora, parse_esplora, hread]
    rfl
  | some storage =>
    obtain ⟨first, more, hblob⟩ := List.exists_cons_of_ne_nil (export_bytes_ne_nil storage)
    rw [export_esplora, parse_esplora, chunks.read_write (hfits storage rfl).size, Option.map_some, hblob]

/-- What is read from a snapshot of a state. -/
def snapshot_of (state : DevnetState) : Snapshot where
  chain_height := as_u32 state.chain.height
  blocks := state.chain.blocks
  alkanes_blob := state.alkanes_storage.export_bytes
  esplora_blob := state.esplora_storage.map WebIndexerStorage.export_bytes
  tertiary_data := state.tertiary_indexers.map fun tertiary => (tertiary.label, tertiary.storage.export_bytes)

theorem parse_stores_write {state : DevnetState} (hwritable : Writable keys state) (chain_height : UInt32)
    (blocks : List Block) :
    parse_stores chain_height blocks (chunks.write state.alkanes_storage.export_bytes ++
        (export_esplora state.esplora_storage ++ (u32_bytes state.tertiary_indexers.length ++
          state.tertiary_indexers.flatMap fun tertiary =>
            chunks.write_pair (utf8.bytes tertiary.label, tertiary.storage.export_bytes)))) =
      .ok { snapshot_of state with chain_height, blocks } := by
  rw [parse_stores, chunks.read_write hwritable.alkanes.size]
  dsimp only
  rw [parse_esplora_write hwritable.esplora]
  refine bind_eq_ok_iff.mpr ⟨_, rfl, ?_⟩
  dsimp only
  rw [u32_bytes, chunks.read_nat_toBytes hwritable.tertiary_count]
  dsimp only
  rw [parse_tertiaries_write hwritable.tertiaries]
  rfl

theorem parse_export {secret_key : Bytes} {state : DevnetState}
    (hreplay : TestChain.ReplayOf keys secret_key state.chain) (hwritable : Writable keys state) :
    ∃ data, state.export_state = .ok data ∧ parse_snapshot keys data = .ok (snapshot_of state) := by
  obtain ⟨_, genesis, rest, -, -, -, hblocks, hheight, hfits, -⟩ := hreplay.spec
  have hlength : state.chain.blocks.length = (state.chain.height + 1).toNat := by
    rw [hblocks, hheight, List.length_cons]
    omega
  have hheights : heights state.chain = .ok ((List.range state.chain.blocks.length).map Int.ofNat) := by
    have hnext : IntType.i32.fits (state.chain.height + 1) := by
      have hroom := hwritable.height
      exact ⟨by omega, by omega⟩
    rw [heights, if_pos (by omega), hlength]
    exact bind_eq_ok_iff.mpr ⟨_, checked_eq_ok.mpr ⟨rfl, hnext⟩, rfl⟩
  have hcount : ((List.range state.chain.blocks.length).map Int.ofNat).length = state.chain.blocks.length := by
    rw [List.length_map, List.length_range]
  have hsmall : state.chain.blocks.length < 2 ^ 32 := by
    obtain ⟨-, hhigh⟩ := hfits
    rw [hlength]
    omega
  have hexport : export_blocks state.chain ((List.range state.chain.blocks.length).map Int.ofNat) =
      .ok (state.chain.blocks.map Block.encode) := by
    rw [List.range_eq_range']
    exact export_blocks_eq (Nat.zero_add _)
  have hmagic : MAGIC.length = 4 := by decide
  refine ⟨_, bind_eq_ok_iff.mpr ⟨_, hheights, bind_eq_ok_iff.mpr ⟨_, hexport, rfl⟩⟩, ?_⟩
  rw [hcount]
  simp only [List.append_assoc]
  unfold parse_snapshot
  rw [if_neg, if_neg]
  · rw [List.drop_left' hmagic, u32_bytes, chunks.read_nat_toBytes (by decide)]
    dsimp only
    rw [if_neg (by decide), u32_bytes, chunks.read_nat_toBytes (UInt32.toNat_lt _)]
    dsimp only
    rw [u32_bytes, chunks.read_nat_toBytes hsmall]
    dsimp only
    rw [parse_blocks_write hwritable.blocks]
    refine bind_eq_ok_iff.mpr ⟨_, rfl, ?_⟩
    dsimp only
    rw [parse_stores_write hwritable, UInt32.ofNat_toNat]
    rfl
  · rw [List.take_left' hmagic]
    exact fun hne => hne rfl
  · simp only [List.length_append, u32_bytes, littleEndian.length_toBytes]
    omega

theorem sameState_iff {state other : DevnetState} :
    SameState state other ↔ state.chain = other.chain ∧
      state.additional_secondaries.map IndexerInstance.view = other.additional_secondaries.map IndexerInstance.view ∧
      state.tertiary_indexers.map IndexerInstance.label = other.tertiary_indexers.map IndexerInstance.label ∧
      ∀ slot, (state.storage slot).map WebIndexerStorage.get = (other.storage slot).map WebIndexerStorage.get := by
  have hlabel (list : List IndexerInstance) :
      list.map IndexerInstance.label = (list.map IndexerInstance.view).map Prod.fst := by
    rw [List.map_map]
    rfl
  have hview (list : List IndexerInstance) (i : Nat) :
      (list[i]?.map IndexerInstance.storage).map WebIndexerStorage.get =
        (list.map IndexerInstance.view)[i]?.map Prod.snd := by
    rw [List.getElem?_map, Option.map_map, Option.map_map]
    rfl
  constructor
  · intro hsame
    refine ⟨hsame.chain, hsame.secondaries, by rw [hlabel, hlabel, hsame.tertiaries], fun slot => ?_⟩
    cases slot with
    | alkanes => exact congrArg some hsame.alkanes
    | esplora => exact hsame.esplora
    | tertiary i =>
      unfold DevnetState.storage
      rw [hview, hview, hsame.tertiaries]
  · rintro ⟨hchain, hsecondaries, hlabels, hstores⟩
    refine ⟨hchain, Option.some.inj (hstores .alkanes), hstores .esplora, hsecondaries, List.ext_getElem? fun i => ?_⟩
    have hname := congrArg (fun labels => labels[i]?) hlabels
    have hstore := hstores (.tertiary i)
    unfold DevnetState.storage at hstore
    dsimp only at hstore
    rw [List.getElem?_map, List.getElem?_map] at hname
    rw [List.getElem?_map, List.getElem?_map]
    cases hfirst : state.tertiary_indexers[i]? with
    | none =>
      rw [hfirst] at hname
      rw [Option.map_eq_none_iff.mp hname.symm]
    | some tertiary =>
      rw [hfirst] at hname hstore
      obtain ⟨other_tertiary, hsecond, hsame⟩ := Option.map_eq_some_iff.mp hname.symm
      rw [hsecond] at hstore ⊢
      exact congrArg some (Prod.ext hsame.symm (Option.some.inj hstore))

def set_all (imports : List (Slot × WebIndexerStorage)) (state : DevnetState) : DevnetState :=
  imports.foldl (fun state entry => state.set_storage entry.2 entry.1) state

theorem set_all_concat (imports : List (Slot × WebIndexerStorage)) (entry : Slot × WebIndexerStorage)
    (state : DevnetState) : set_all (imports ++ [entry]) state = (set_all imports state).set_storage entry.2 entry.1 := by
  unfold set_all
  rw [List.foldl_append]
  rfl

theorem storage_set_storage (state : DevnetState) (storage : WebIndexerStorage) (slot query : Slot) :
    (state.set_storage storage slot).storage query =
      if query = slot then (state.storage slot).map fun _ => storage else state.storage query := by
  split
  · next heq =>
    subst heq
    cases query with
    | alkanes => rfl
    | esplora => rfl
    | tertiary i =>
      unfold DevnetState.storage DevnetState.set_storage
      dsimp only
      rw [List.getElem?_modify_eq]
      cases state.tertiary_indexers[i]? <;> rfl
  · next hne =>
    cases slot with
    | alkanes => cases query <;> first | exact absurd rfl hne | rfl
    | esplora => cases query <;> first | exact absurd rfl hne | rfl
    | tertiary i =>
      cases query with
      | alkanes => rfl
      | esplora => rfl
      | tertiary j =>
        have hij : i ≠ j := fun heq => hne (congrArg Slot.tertiary heq.symm)
        unfold DevnetState.storage DevnetState.set_storage
        dsimp only
        rw [List.getElem?_modify_ne _ _ hij]

theorem storage_set_all (imports : List (Slot × WebIndexerStorage)) (state : DevnetState) (slot : Slot) :
    (set_all imports state).storage slot =
      match (chunks.fill imports).lookup slot with
      | some storage => (state.storage slot).map fun _ => storage
      | none => state.storage slot := by
  induction imports using List.reverseRecOn with
  | nil => rfl
  | append_singleton imports entry ih =>
    rw [set_all_concat, storage_set_storage, chunks.lookup_fill_concat]
    split
    · next heq =>
      subst heq
      dsimp only
      rw [ih]
      split
      · rw [Option.map_map]
        rfl
      · rfl
    · exact ih

theorem set_all_frame (imports : List (Slot × WebIndexerStorage)) (state : DevnetState) :
    (set_all imports state).chain = state.chain ∧
      (set_all imports state).additional_secondaries = state.additional_secondaries ∧
      (set_all imports state).tertiary_indexers.map IndexerInstance.label =
        state.tertiary_indexers.map IndexerInstance.label := by
  induction imports using List.reverseRecOn with
  | nil => exact ⟨rfl, rfl, rfl⟩
  | append_singleton imports entry ih =>
    rw [set_all_concat]
    obtain ⟨hchain, hsecondaries, hlabels⟩ := ih
    cases entry.1 with
    | alkanes => exact ⟨hchain, hsecondaries, hlabels⟩
    | esplora => exact ⟨hchain, hsecondaries, hlabels⟩
    | tertiary i =>
      refine ⟨hchain, hsecondaries, ?_⟩
      rw [← hlabels]
      unfold DevnetState.set_storage
      dsimp only
      apply List.ext_getElem?
      intro j
      rw [List.getElem?_map, List.getElem?_map, List.getElem?_modify]
      cases (set_all imports state).tertiary_indexers[j]? with
      | none => rfl
      | some tertiary => by_cases hij : i = j <;> simp [hij]

/-- The pairs that a blob holds before it ends or is cut short. -/
def pairs_of (blob : Bytes) : List (Bytes × Bytes) :=
  match chunks.read_nat blob with
  | none => []
  | some (count, rest) => (chunks.read_pairs count rest).1

/-- The pairs stand in a blob after their count, up to where it is cut short if it is. A blob that is too short for
    a count has none. -/
def Spelled (blob : Bytes) (pairs : List (Bytes × Bytes)) : Prop :=
  (blob.length < 4 ∧ pairs = []) ∨
    ∃ count data, count < 2 ^ 32 ∧ blob = littleEndian.toBytes 4 count ++ data ∧ chunks.Stand count pairs data

/-- A store holds what the pairs in a blob say, the last one of each key, and nothing else. -/
def HoldsPairs (store : WebIndexerStorage) (blob : Bytes) : Prop :=
  ∃ pairs, Spelled blob pairs ∧ ∀ key, store.get key = chunks.last_value pairs key

/-- A blob that is not cut short. -/
def whole (blob : Bytes) : Bool :=
  match chunks.read_nat blob with
  | none => true
  | some (count, rest) => (chunks.read_pairs count rest).2.isOk

theorem get_import_bytes (blob : Bytes) :
    (WebIndexerStorage.import_bytes blob).1.get = (chunks.fill (pairs_of blob)).lookup := by
  unfold WebIndexerStorage.import_bytes pairs_of
  cases chunks.read_nat blob with
  | none => rfl
  | some head =>
    dsimp only
    split <;> rfl

theorem spelled_iff {blob : Bytes} {pairs : List (Bytes × Bytes)} : Spelled blob pairs ↔ pairs = pairs_of blob := by
  unfold Spelled pairs_of
  cases hread : chunks.read_nat blob with
  | none =>
    have hshort : blob.length < 4 := by
      by_contra hlong
      rw [chunks.read_nat, if_neg hlong] at hread
      cases hread
    refine ⟨fun hspelled => ?_, fun hnil => .inl ⟨hshort, hnil⟩⟩
    obtain ⟨-, rfl⟩ | ⟨count, data, -, rfl, -⟩ := hspelled
    · rfl
    · rw [List.length_append, littleEndian.length_toBytes] at hshort
      omega
  | some head =>
    obtain ⟨count, data⟩ := head
    have hlong : ¬ blob.length < 4 := fun hshort => by
      rw [chunks.read_nat, if_pos hshort] at hread
      cases hread
    constructor
    · rintro (⟨hshort, -⟩ | ⟨other, rest, hsmall, rfl, hstand⟩)
      · exact absurd hshort hlong
      · rw [chunks.read_nat_toBytes hsmall] at hread
        cases hread
        exact chunks.stand_iff.mp hstand
    · rintro rfl
      refine .inr ⟨count, data, chunks.read_nat_lt hread, ?_, chunks.stand_iff.mpr rfl⟩
      rw [chunks.read_nat, if_neg hlong] at hread
      obtain ⟨rfl, rfl⟩ := Prod.mk.inj (Option.some.inj hread)
      have hhead := littleEndian.toBytes_ofBytes (blob.take 4)
      rw [List.length_take_of_le (Nat.not_lt.mp hlong)] at hhead
      rw [hhead, List.take_append_drop]

theorem holdsPairs_iff {store : WebIndexerStorage} {blob : Bytes} :
    HoldsPairs store blob ↔ store.get = (chunks.fill (pairs_of blob)).lookup := by
  constructor
  · rintro ⟨_, hspelled, hget⟩
    cases spelled_iff.mp hspelled
    exact funext fun key => (hget key).trans (chunks.lookup_fill_eq _ key).symm
  · intro hget
    exact ⟨_, spelled_iff.mpr rfl, fun key => (congrFun hget key).trans (chunks.lookup_fill_eq _ key)⟩

theorem whole_iff (blob : Bytes) : whole blob = true ↔ ∃ n, (WebIndexerStorage.import_bytes blob).2 = .ok n := by
  unfold WebIndexerStorage.import_bytes whole
  cases chunks.read_nat blob with
  | none => exact ⟨fun _ => ⟨0, rfl⟩, fun _ => rfl⟩
  | some head =>
    dsimp only
    split
    · next hok => rw [hok]; exact ⟨fun _ => ⟨_, rfl⟩, fun _ => rfl⟩
    · next hcut => rw [hcut]; exact ⟨nofun, fun ⟨_, hok⟩ => nomatch hok⟩

/-- The blobs of which an import is tried: those up to the first that is cut short. -/
def attempted : List (Slot × Bytes) → List (Slot × Bytes)
  | [] => []
  | entry :: rest => if whole entry.2 then entry :: attempted rest else [entry]

/-- The store that the blob of an entry makes, also where it is cut short. -/
def made (entry : Slot × Bytes) : Slot × WebIndexerStorage := (entry.1, (WebIndexerStorage.import_bytes entry.2).1)

theorem import_slots_eq (list : List (Slot × Bytes)) (state : DevnetState) :
    (DevnetState.import_slots list state).1 = set_all ((attempted list).map made) state := by
  induction list generalizing state with
  | nil => rfl
  | cons entry rest ih =>
    rw [DevnetState.import_slots, attempted]
    dsimp only
    split
    · next e he =>
      rw [if_neg]
      · rfl
      · rw [whole_iff, he]
        exact fun ⟨_, hok⟩ => nomatch hok
    · next n hn =>
      rw [if_pos ((whole_iff entry.2).mpr ⟨n, hn⟩), ih]
      rfl

theorem import_slots_ok {list : List (Slot × Bytes)} (hall : ∀ entry ∈ list, whole entry.2 = true)
    (state : DevnetState) : (DevnetState.import_slots list state).2 = .ok () ∧ attempted list = list := by
  induction list generalizing state with
  | nil => exact ⟨rfl, rfl⟩
  | cons entry rest ih =>
    obtain ⟨n, hn⟩ := (whole_iff entry.2).mp (hall entry List.mem_cons_self)
    have hrest := ih fun other hother => hall other (List.mem_cons_of_mem _ hother)
    rw [DevnetState.import_slots, attempted, if_pos (hall entry List.mem_cons_self)]
    dsimp only
    rw [hn]
    exact ⟨(hrest _).1, congrArg _ (hrest state).2⟩

theorem storage_import_slots (list : List (Slot × Bytes)) (state : DevnetState) (slot : Slot) :
    ((DevnetState.import_slots list state).1.storage slot).map WebIndexerStorage.get =
      match (chunks.fill (attempted list)).lookup slot with
      | some blob => (state.storage slot).map fun _ => (chunks.fill (pairs_of blob)).lookup
      | none => (state.storage slot).map WebIndexerStorage.get := by
  rw [import_slots_eq, storage_set_all]
  unfold made
  rw [chunks.lookup_fill_map (fun blob => (WebIndexerStorage.import_bytes blob).1)]
  cases (chunks.fill (attempted list)).lookup slot with
  | none => rfl
  | some blob =>
    dsimp only [Option.map_some]
    rw [Option.map_map]
    cases state.storage slot with
    | none => rfl
    | some _ => exact congrArg some (get_import_bytes blob)

end

end qubitcoin.web_sys
