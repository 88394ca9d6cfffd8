import Qubitcoin.Daemon.Address
import Qubitcoin.Lib.Sweep
import Qubitcoin.Mempool.Descendants
import Qubitcoin.Storage.BlockFiles
import Qubitcoin.Validation.Bip34
import Qubitcoin.Validation.Committed
import Qubitcoin.Validation.Spent

/-! `qubitcoind/main.rs`: the blocks that `generatetoaddress` assembles. -/

open qubitcoin codec sweep primitives script transaction block params check merkle mempool
  validation_state qubitcoin.validation interpreter serialize

namespace qubitcoin.qubitcoind

/-- The transactions of the pool, in the order in which the map gives out their ids. -/
def all_mempool (pool : TxMemPool) (order : List Txid) : List Transaction := order.filterMap pool.get

/-- Every transaction of the pool that this one spends from is placed. -/
def deps_met (mempool_txid_set : List Txid) (placed : List Transaction) (tx : Transaction) : Bool :=
  tx.vin.all fun input =>
    !mempool_txid_set.contains input.prevout.hash || (placed.map Transaction.txid).contains input.prevout.hash

/-- The passes over the transactions of the pool. -/
def place_txs (all_mempool : List Transaction) : Sweep Transaction :=
  passes (deps_met (all_mempool.map Transaction.txid)) (all_mempool.length * 2 + 1) all_mempool []

/-- Parents before children. What cannot be placed follows as it is. -/
def user_txs (all_mempool : List Transaction) : List Transaction :=
  (place_txs all_mempool).placed ++ (place_txs all_mempool).stuck

def any_witness (user_txs : List Transaction) : Bool :=
  user_txs.any fun tx => tx.vin.any fun input => !input.witness.stack.isEmpty

/-- The script of the coinbase input: the height, in at least two bytes. -/
def coinbase_sig_script (height : Int) : Script :=
  let sig_script := Script.new.push_int height
  if sig_script.len < 2 then sig_script.push_int 0 else sig_script

variable (hash256 : List UInt8 → Uint256)

/-- The hashes of the pairs of one level. -/
def combine_level (level : List Uint256) : List Uint256 :=
  (List.range ((level.length + 1) / 2)).map fun k =>
    let left := level.getD (2 * k) 0
    let right := if 2 * k + 1 < level.length then level.getD (2 * k + 1) 0 else level.getD (2 * k) 0
    hash256 (Uint256.data left ++ Uint256.data right)

/-- Levels up to one with at most one hash. -/
def combine_levels : Nat → List Uint256 → List Uint256
  | 0, level => level
  | fuel + 1, level => if 1 < level.length then combine_levels fuel (combine_level hash256 level) else level

/-- The witness root, with a zero hash for the coinbase. -/
def witness_root (user_txs : List Transaction) : Uint256 :=
  let witness_hashes := 0 :: user_txs.map Transaction.wtxid
  match combine_levels hash256 witness_hashes.length witness_hashes with
  | [] => 0
  | root :: _ => root

def witness_nonce : List UInt8 := List.replicate 32 0

def commitment_script (user_txs : List Transaction) : Script :=
  let witness_commitment := hash256 (Uint256.data (witness_root hash256 user_txs) ++ witness_nonce)
  ⟨[0x6a, 0x24] ++ [0xaa, 0x21, 0xa9, 0xed] ++ Uint256.data witness_commitment⟩

/-- The coinbase, with a commitment where a transaction has a witness. -/
def coinbase_tx (height : Int) (subsidy : Amount) (coinbase_script : Script) (user_txs : List Transaction) : Transaction :=
  let has_witness := any_witness user_txs
  let coinbase_witness : Witness := if has_witness then ⟨[witness_nonce]⟩ else .new
  let coinbase_outputs := TxOut.mk subsidy coinbase_script ::
    if has_witness then [⟨0, commitment_script hash256 user_txs⟩] else []
  .new hash256 2
    [{ prevout := .null, script_sig := coinbase_sig_script height, sequence := SEQUENCE_FINAL, witness := coinbase_witness }]
    coinbase_outputs 0

/-- What a header takes from the chain and from the search for its proof of work. -/
structure HeaderFields where
  version : Int32
  prev_blockhash : BlockHash
  time : UInt32
  bits : UInt32
  nonce : UInt32

/-- The block over the transactions of the pool. -/
def assemble_block (fields : HeaderFields) (height : Int) (subsidy : Amount) (coinbase_script : Script)
    (all_mempool : List Transaction) : Block :=
  let user_txs := user_txs all_mempool
  let all_txs := coinbase_tx hash256 height subsidy coinbase_script user_txs :: user_txs
  { header :=
      { version := fields.version, prev_blockhash := fields.prev_blockhash
        merkle_root := (block_merkle_root hash256 all_txs).1
        time := fields.time, bits := fields.bits, nonce := fields.nonce }
    vtx := all_txs }

/-- A block of `generatetoaddress` at a height, to an address, with the pool's ids in an order. -/
def generate_block (segwit_decode : List Char → Option (UInt8 × List UInt8)) (pool : TxMemPool) (order : List Txid)
    (params : ConsensusParams) (fields : HeaderFields) (height : Int) (address : List Char) :
    Except (Failure BlockValidationState) Block := do
  let subsidy ← get_block_subsidy height params
  pure (assemble_block hash256 fields height subsidy (coinbase_script segwit_decode address) (all_mempool pool order))

def pool_txs (pool : TxMemPool) : List Transaction := pool.entries.entries.map fun entry => entry.2.tx

/-- One transaction of a list spends from another one. -/
def ParentOf (txs : List Transaction) (parent child : Transaction) : Prop :=
  parent ∈ txs ∧ child ∈ txs ∧ mempool.Spends child parent.txid

def NoCycle (txs : List Transaction) : Prop := ∀ tx, ¬ Relation.TransGen (ParentOf txs) tx tx

/-- Each transaction stands after those of the list that it spends from. -/
def ParentsFirst (txs : List Transaction) : Prop :=
  ∀ front tx back, txs = front ++ tx :: back → ∀ parent, ParentOf txs parent tx → parent ∈ front

variable {hash256} {env : Env} {pool : TxMemPool} {order : List Txid} {txs : List Transaction} {params : ConsensusParams}
  {fields : HeaderFields} {height : Int} {subsidy : Amount} {script : Script} {address : List Char}
  {segwit_decode : List Char → Option (UInt8 × List UInt8)} {block : Block}

theorem all_mempool_perm (horder : order.Perm pool.entries.keys) : (all_mempool pool order).Perm (pool_txs pool) := by
  have hget : ∀ entry ∈ pool.entries.entries, pool.get entry.1 = some entry.2.tx := by
    intro entry hmem
    unfold TxMemPool.get
    rw [AList.mem_lookup_iff.mpr hmem]
    rfl
  have hkeys : pool.entries.keys.filterMap pool.get = pool_txs pool := by
    unfold AList.keys List.keys pool_txs
    rw [List.filterMap_map, ← List.filterMap_eq_map]
    exact List.filterMap_congr hget
  rw [← hkeys]
  exact horder.filterMap _

theorem nodup_txids (hkeyed : Keyed pool) : ((pool_txs pool).map Transaction.txid).Nodup := by
  have hkeys : (pool_txs pool).map Transaction.txid = pool.entries.keys := by
    unfold AList.keys List.keys pool_txs
    rw [List.map_map]
    exact List.map_congr_left fun entry hmem => hkeyed entry.1 entry.2 (AList.mem_lookup_iff.mpr hmem)
  rw [hkeys]
  exact pool.entries.keys_nodup

theorem deps_met_iff {set : List Txid} {placed : List Transaction} {tx : Transaction} :
    deps_met set placed tx = true ↔
      ∀ input ∈ tx.vin, input.prevout.hash ∈ set → input.prevout.hash ∈ placed.map Transaction.txid := by
  unfold deps_met
  rw [List.all_eq_true]
  refine forall₂_congr fun input _ => ?_
  rw [Bool.or_eq_true, Bool.not_eq_true', List.contains_eq_mem, List.contains_eq_mem, decide_eq_true_iff,
    decide_eq_false_iff_not]
  exact (Decidable.imp_iff_not_or).symm

theorem place_txs_complete (hacyclic : NoCycle txs) : (place_txs txs).stuck = [] ∧
    Ordered (deps_met (txs.map Transaction.txid)) (place_txs txs).placed ∧ (place_txs txs).placed.Perm txs := by
  refine passes_complete ?_ (Nat.lt_succ_of_le (Nat.le_mul_of_pos_right _ Nat.two_pos)) ordered_nil (List.Perm.refl _)
  intro placed left hperm hne
  obtain ⟨tx, hmem, hindependent⟩ := exists_independent hacyclic hne
  refine ⟨tx, hmem, deps_met_iff.mpr fun input hinput hset => ?_⟩
  obtain ⟨parent, hparent, htxid⟩ := List.mem_map.mp hset
  have htx : tx ∈ txs := hperm.subset (List.mem_append_right _ hmem)
  obtain hplaced | hleft := List.mem_append.mp (hperm.symm.subset hparent)
  · exact List.mem_map.mpr ⟨parent, hplaced, htxid⟩
  · exact absurd ⟨hparent, htx, input, hinput, htxid.symm⟩ (hindependent parent hleft)

theorem user_txs_perm (hacyclic : NoCycle txs) : (user_txs txs).Perm txs := by
  obtain ⟨hstuck, _, hperm⟩ := place_txs_complete hacyclic
  unfold user_txs
  rw [hstuck, List.append_nil]
  exact hperm

theorem user_txs_parents_first (hacyclic : NoCycle txs) (hnodup : (txs.map Transaction.txid).Nodup) :
    ParentsFirst (user_txs txs) := by
  have hperm := user_txs_perm hacyclic
  obtain ⟨hstuck, hordered, _⟩ := place_txs_complete hacyclic
  intro front tx back heq parent ⟨hparent, _, input, hinput, htxid⟩
  have hplaced : (place_txs txs).placed = front ++ tx :: back := by
    rw [← heq]
    unfold user_txs
    rw [hstuck, List.append_nil]
  have hin : parent ∈ txs := hperm.subset hparent
  have hmet := deps_met_iff.mp (hordered front tx back hplaced) input hinput
    (htxid ▸ List.mem_map_of_mem hin)
  obtain ⟨other, hother, hsame⟩ := List.mem_map.mp hmet
  have hother_in : other ∈ txs := hperm.subset (heq ▸ List.mem_append_left _ hother)
  obtain rfl := List.inj_on_of_nodup_map hnodup hother_in hin (hsame.trans htxid)
  exact hother

theorem combine_level_eq (level : List Uint256) : combine_level hash256 level = next_level (hash_pair hash256) level := by
  fun_induction next_level (hash_pair hash256) level with
  | case1 => rfl
  | case2 left => simp [combine_level, hash_pair]
  | case3 left right rest ih =>
    rw [← ih]
    unfold combine_level
    have hcount : ((left :: right :: rest).length + 1) / 2 = (rest.length + 1) / 2 + 1 := by
      rw [List.length_cons, List.length_cons]
      omega
    rw [hcount, List.range_succ_eq_map, List.map_cons, List.map_map]
    congr 1
    refine List.map_congr_left fun k _ => ?_
    have hlt : 2 * (k + 1) + 1 < (left :: right :: rest).length ↔ 2 * k + 1 < rest.length := by
      rw [List.length_cons, List.length_cons]
      omega
    dsimp only [Function.comp, Nat.succ_eq_add_one]
    rw [if_congr hlt rfl rfl]
    rfl

theorem head_combine_levels {fuel : Nat} : ∀ {level : List Uint256} (seen : Bool),
    (combine_levels hash256 fuel level).head? = (compute_merkle_root_loop (hash_pair hash256) fuel level seen).1 := by
  induction fuel with
  | zero => exact fun _ => rfl
  | succ fuel ih =>
    intro level seen
    unfold combine_levels compute_merkle_root_loop
    by_cases hlong : 1 < level.length
    · rw [if_pos hlong, if_neg (Nat.not_le_of_lt hlong), combine_level_eq]
      exact ih _
    · rw [if_neg hlong, if_pos (Nat.le_of_not_lt hlong)]

theorem witness_root_eq (coinbase : Transaction) (txs : List Transaction) :
    witness_root hash256 txs = (block_witness_merkle_root hash256 (coinbase :: txs)).1 := by
  unfold witness_root block_witness_merkle_root compute_merkle_root
  dsimp only
  rw [← head_combine_levels]
  cases combine_levels hash256 (0 :: txs.map Transaction.wtxid).length (0 :: txs.map Transaction.wtxid) <;> rfl

theorem length_encode_height_le (hlow : 0 ≤ height) : (encode_height height).length ≤ 10 := by
  by_cases hlarge : 16 < height
  · obtain ⟨_, hlength⟩ := length_encode_i64_pos (by omega : 0 < height)
    rw [encode_height_large hlarge, List.length_cons]
    omega
  · unfold encode_height
    split
    · decide
    · rw [if_pos (by omega)]
      exact (by decide : 1 ≤ 10)

theorem coinbase_sig_script_data (hlow : 0 ≤ height) :
    ∃ rest, (coinbase_sig_script height).data = encode_height height ++ rest ∧ rest.length ≤ 1 := by
  have hpush : (Script.new.push_int height).data = encode_height height := push_int_encode_height hlow .new
  unfold coinbase_sig_script
  dsimp only
  split
  · refine ⟨encode_height 0, ?_, by decide⟩
    rw [push_int_encode_height (Int.le_refl 0), hpush]
  · exact ⟨[], by rw [hpush, List.append_nil], Nat.zero_le 1⟩

theorem assemble_check_height (hlow : 0 ≤ height) :
    check_coinbase_height (assemble_block env.hash256 fields height subsidy script txs) height = .ok () := by
  obtain ⟨rest, hdata, _⟩ := coinbase_sig_script_data hlow
  unfold check_coinbase_height assemble_block coinbase_tx Transaction.new
  dsimp only
  rw [hdata, List.take_left', beq_self_eq_true]
  · rfl
  · rfl

theorem length_commitment_script (txs : List Transaction) : (commitment_script env.hash256 txs).data.length = 38 := by
  unfold commitment_script
  dsimp only
  rw [List.length_append, length_data]
  rfl

theorem is_witness_commitment_script (txs : List Transaction) :
    is_witness_commitment (commitment_script env.hash256 txs) = true := by
  unfold is_witness_commitment
  rw [length_commitment_script]
  rfl

theorem sendable_coinbase (hlow : 0 ≤ height) (hsubsidy : IntType.i64.fits subsidy) (hscript : script.data.length ≤ MAX_SIZE) :
    Sendable env.hash256 (coinbase_tx env.hash256 height subsidy script txs) := by
  have hlimit : 38 ≤ MAX_SIZE := by decide
  have hnonce : (Witness.mk [witness_nonce]).Sized := by decide
  refine ⟨rfl, .inl (List.cons_ne_nil _ _), ?_, ?_, ?_, ?_⟩
  · exact Nat.le_trans (by decide : 1 ≤ 38) hlimit
  · intro input hmem
    obtain rfl := List.mem_singleton.mp hmem
    obtain ⟨rest, hdata, hrest⟩ := coinbase_sig_script_data hlow
    have hheight := length_encode_height_le hlow
    constructor
    · dsimp only
      rw [hdata, List.length_append]
      omega
    · dsimp only
      split
      · exact hnonce
      · exact (by decide : Witness.new.Sized)
  · unfold coinbase_tx Transaction.new
    dsimp only
    split
    · exact Nat.le_trans (by decide : 2 ≤ 38) hlimit
    · exact Nat.le_trans (by decide : 1 ≤ 38) hlimit
  · intro output hmem
    obtain rfl | hmem := List.mem_cons.mp hmem
    · exact ⟨hsubsidy, hscript⟩
    · split at hmem
      · obtain rfl := List.mem_singleton.mp hmem
        refine ⟨(by decide : IntType.i64.fits 0), ?_⟩
        dsimp only
        rw [length_commitment_script]
        exact hlimit
      · cases hmem

/-- The witness rules accept the block: the commitment is the one that they compute, and without
    one no input has a witness. -/
theorem assemble_check_witness (hplain : is_witness_commitment script = false) :
    check_witness_rules env (assemble_block env.hash256 fields height subsidy script txs) = .ok () := by
  unfold check_witness_rules check_witness_commitment assemble_block
  dsimp only
  rw [← witness_root_eq]
  unfold coinbase_tx Transaction.new
  dsimp only
  cases hwitness : any_witness (user_txs txs) with
  | true =>
    have hfind : ([TxOut.mk subsidy script, ⟨0, commitment_script env.hash256 (user_txs txs)⟩].reverse.find?
        fun output => is_witness_commitment output.script_pubkey) = some ⟨0, commitment_script env.hash256 (user_txs txs)⟩ := by
      rw [List.reverse_cons, List.reverse_singleton, List.singleton_append, List.find?_cons_of_pos]
      exact is_witness_commitment_script _
    rw [if_pos rfl, if_pos rfl, hfind]
    dsimp only [List.head?_cons, Option.map_some]
    have hnonce : witness_nonce.length = 32 := rfl
    rw [if_pos hnonce]
    refine require_eq_ok.mpr (beq_iff_eq.mpr ?_)
    unfold commitment_script
    dsimp only
    rw [List.drop_left', List.take_of_length_le]
    · rw [length_data]
    · rfl
  | false =>
    have hfind : ([TxOut.mk subsidy script].reverse.find? fun output => is_witness_commitment output.script_pubkey) = none := by
      rw [List.reverse_singleton, List.find?_cons_of_neg, List.find?_nil]
      rw [hplain]
      exact Bool.false_ne_true
    rw [if_neg Bool.false_ne_true, if_neg Bool.false_ne_true, hfind]
    refine require_eq_ok.mpr (List.all_eq_true.mpr fun tx hmem => ?_)
    obtain rfl | hmem := List.mem_cons.mp hmem
    · rfl
    · rw [Bool.not_eq_true']
      unfold any_witness at hwitness
      exact Bool.eq_false_iff.mpr fun hsome => Bool.eq_false_iff.mp hwitness (List.any_eq_true.mpr ⟨tx, hmem, hsome⟩)

/-- The byte strings that are hashed for the ids of the transactions of a block and for its merkle
    root. -/
def merkle_bytes (env : Env) (block : Block) : Set (List UInt8) :=
  { bytes | (∃ tx ∈ block.vtx, bytes = serialize_transaction tx false) ∨
    ∃ children ∈ hashed_pairs (hash_pair env.hash256) (block.vtx.map Transaction.txid),
      bytes = Uint256.data children.1 ++ Uint256.data children.2 }

theorem assemble_check_merkle (hroot : block.header.merkle_root = (block_merkle_root env.hash256 block.vtx).1)
    (hinj : Set.InjOn env.hash256 (merkle_bytes env block)) (hnodup : (block.vtx.map Transaction.txid).Nodup) :
    check_merkle env block true = .ok () := by
  have hfree : CollisionFree (hash_pair env.hash256)
      (hashed_pairs (hash_pair env.hash256) (block.vtx.map Transaction.txid)) :=
    (collisionFree_of_injOn hinj).mono fun children hmem => .inr ⟨children, hmem, rfl⟩
  have hunmutated : (block_merkle_root env.hash256 block.vtx).2 = false := not_mutated_of_nodup 0 hfree hnodup
  unfold check_merkle
  rw [if_pos rfl, hroot]
  generalize block_merkle_root env.hash256 block.vtx = root at hunmutated
  obtain ⟨root, mutated⟩ := root
  rw [show mutated = false from hunmutated]
  dsimp only
  rw [beq_self_eq_true]
  rfl

/-- A block of the transactions of a pool at a height: the coinbase and then every transaction
    of the pool once, after its parents in the pool, without the fallback; and the block read from
    its own bytes passes the checks of the merkle root, of the height and of the commitment. -/
structure Mined (env : Env) (pool : TxMemPool) (order : List Txid) (height : Int) (block : Block) : Prop where
  resolved : (place_txs (all_mempool pool order)).stuck = []
  txs : ∃ coinbase txs, block.vtx = coinbase :: txs ∧ coinbase.is_coinbase = true ∧ txs.Perm (pool_txs pool) ∧
    txs.Nodup ∧ ParentsFirst txs
  accepted : ∃ decoded, (Block.decode env.hash256).run block.encode = .ok (decoded, []) ∧
    check_merkle env decoded true = .ok () ∧ check_coinbase_height decoded height = .ok () ∧
      check_witness_rules env decoded = .ok ()

theorem NoCycle.mono {txs other : List Transaction} (hacyclic : NoCycle txs) (hsub : other ⊆ txs) : NoCycle other := by
  intro tx hcycle
  exact hacyclic tx (Relation.TransGen.mono (fun _ _ ⟨hparent, hchild, hspends⟩ => ⟨hsub hparent, hsub hchild, hspends⟩) _ _ hcycle)

theorem is_witness_commitment_cons {op : UInt8} {rest : List UInt8} (hop : op ≠ 0x6a) :
    is_witness_commitment ⟨op :: rest⟩ = false := by
  unfold is_witness_commitment
  rw [List.take_succ_cons, List.cons_beq_cons, beq_false_of_ne hop, Bool.false_and, Bool.and_false]

theorem coinbase_script_plain (hdecode : ∀ version program, segwit_decode address = some (version, program) →
    version ≤ 16 ∧ program.length ≤ 40) :
    is_witness_commitment (coinbase_script segwit_decode address) = false ∧
      (coinbase_script segwit_decode address).data.length ≤ MAX_SIZE := by
  unfold coinbase_script
  split
  · next version program heq =>
    obtain ⟨hversion, hprogram⟩ := hdecode version program heq
    constructor
    · apply is_witness_commitment_cons
      split
      · decide
      · intro hop
        have hnat := congrArg UInt8.toNat hop
        rw [UInt8.le_iff_toNat_le] at hversion
        rw [UInt8.toNat_add] at hnat
        change version.toNat ≤ 16 at hversion
        change (80 + version.toNat) % 256 = 106 at hnat
        omega
    · rw [List.length_cons, List.length_cons]
      exact Nat.le_trans (Nat.succ_le_succ (Nat.succ_le_succ hprogram)) (by decide)
  · exact ⟨by decide, by decide⟩

/-- For every pool without cycles, with transactions that have wire forms, fewer than a block can
    list, and none of which is the coinbase itself. The decoder of the `bech32` crate gives versions
    up to 16 and programs of at most 40 bytes. -/
theorem generated_block_mined (hkeyed : Keyed pool) (hacyclic : NoCycle (pool_txs pool))
    (hsendable : ∀ tx ∈ pool_txs pool, Sendable env.hash256 tx) (hcount : (pool_txs pool).length < MAX_SIZE)
    (horder : order.Perm pool.entries.keys) (hheight : 0 ≤ height)
    (hdecode : ∀ version program, segwit_decode address = some (version, program) → version ≤ 16 ∧ program.length ≤ 40)
    (hgenerate : generate_block env.hash256 segwit_decode pool order params fields height address = .ok block)
    (hinj : Set.InjOn env.hash256 (merkle_bytes env block))
    (hfresh : ∀ coinbase ∈ block.vtx.head?, ∀ tx ∈ pool_txs pool,
      tx.without_witness env.hash256 ≠ coinbase.without_witness env.hash256) :
    Mined env pool order height block := by
  unfold generate_block at hgenerate
  obtain ⟨subsidy, hsubsidy, hgenerate⟩ := bind_eq_ok_iff.mp hgenerate
  cases hgenerate
  obtain ⟨hplain, hscript⟩ := coinbase_script_plain hdecode
  generalize coinbase_script segwit_decode address = script at hinj hfresh hplain hscript ⊢
  have hmempool := all_mempool_perm horder
  have hacyclic := hacyclic.mono hmempool.subset
  have hnodup : ((all_mempool pool order).map Transaction.txid).Nodup :=
    (hmempool.map _).nodup_iff.mpr (nodup_txids hkeyed)
  have hperm := (user_txs_perm hacyclic).trans hmempool
  have hfits : IntType.i64.fits subsidy := by
    obtain ⟨hlow, hhigh⟩ := get_block_subsidy_range hsubsidy
    have hcoin : (50 * COIN : Int) < 2 ^ 63 := by decide
    exact ⟨by linarith, by linarith⟩
  have hcoinbase : Sendable env.hash256 (coinbase_tx env.hash256 height subsidy script (user_txs (all_mempool pool order))) :=
    sendable_coinbase hheight hfits hscript
  have hblock : Block.Sendable env.hash256 (assemble_block env.hash256 fields height subsidy script (all_mempool pool order)) := by
    constructor
    · unfold assemble_block
      dsimp only
      rw [List.length_cons, hperm.length_eq]
      exact hcount
    · intro tx hmem
      obtain rfl | hmem := List.mem_cons.mp hmem
      · exact hcoinbase
      · exact hsendable tx (hperm.subset hmem)
  have htxids : ((assemble_block env.hash256 fields height subsidy script (all_mempool pool order)).vtx.map
      Transaction.txid).Nodup := by
    refine List.nodup_cons.mpr ⟨fun hmem => ?_, ((user_txs_perm hacyclic).map _).nodup_iff.mpr hnodup⟩
    obtain ⟨tx, htx, htxid⟩ := List.mem_map.mp hmem
    have hin := hperm.subset htx
    exact hfresh _ rfl tx hin ((hsendable tx hin).without_witness_eq hinj (.inl ⟨tx, List.mem_cons_of_mem _ htx, rfl⟩)
      (.inl ⟨_, List.mem_cons_self, rfl⟩) hcoinbase htxid)
  refine ⟨(place_txs_complete hacyclic).1, ⟨_, _, rfl, rfl, hperm, ?_, user_txs_parents_first hacyclic hnodup⟩, _,
    (Block.exact_decode env.hash256).run_eq_ok.mpr ⟨hblock, (List.append_nil _).symm⟩, assemble_check_merkle rfl hinj htxids,
    assemble_check_height hheight, assemble_check_witness hplain⟩
  exact (user_txs_perm hacyclic).nodup_iff.mpr hnodup.of_map

/-- A pool that was given some transactions. -/
def pool_of (txs : List Transaction) : TxMemPool :=
  { TxMemPool.new with entries := txs.foldr (fun tx entries => entries.insert tx.txid { rival_entry with tx }) ∅ }

theorem keyed_pool_of (txs : List Transaction) : Keyed (pool_of txs) := by
  induction txs with
  | nil =>
    intro txid entry hlookup
    exact absurd hlookup (Option.some_ne_none entry).symm
  | cons tx rest ih =>
    intro txid entry hlookup
    unfold pool_of at hlookup
    rw [List.foldr_cons] at hlookup
    by_cases heq : txid = tx.txid
    · rw [heq, AList.lookup_insert] at hlookup
      cases hlookup
      exact heq.symm
    · rw [AList.lookup_insert_ne heq] at hlookup
      exact ih txid entry hlookup

theorem pool_of_sublist (txs : List Transaction) : (pool_txs (pool_of txs)).Sublist txs := by
  induction txs with
  | nil => exact .slnil
  | cons tx rest ih =>
    unfold pool_txs pool_of
    rw [List.foldr_cons, AList.entries_insert, List.map_cons]
    exact (((List.kerase_sublist _ _).map _).trans ih).cons_cons tx

/-- The header of the first block on regtest after the genesis block. -/
def first_fields : HeaderFields :=
  { version := 0x20000000, prev_blockhash := ConsensusParams.regtest.genesis_hash, time := 1296688603, bits := 0x207fffff, nonce := 0 }

/-- The block over a pool of some transactions, at height one, to an address that is not decoded. -/
def first_generated (txs : List Transaction) : Except (Failure BlockValidationState) Block :=
  generate_block Env.op_true.hash256 (fun _ => none) (pool_of txs) (txs.map Transaction.txid) .regtest first_fields 1 []

/-- A transaction with a witness, and one that spends from it. -/
def witness_parent : Transaction :=
  .new Env.op_true.hash256 2 [⟨⟨7, 0⟩, .new, SEQUENCE_FINAL, ⟨[[1]]⟩⟩] [⟨100000, ⟨[0x51]⟩⟩] 0

def plain_child : Transaction :=
  .new Env.op_true.hash256 2 [⟨⟨witness_parent.txid, 0⟩, .new, SEQUENCE_FINAL, .new⟩] [⟨90000, ⟨[0x51]⟩⟩] 0

def generated_coinbase : Transaction :=
  coinbase_tx Env.op_true.hash256 1 5000000000 ⟨[0x51]⟩ [witness_parent, plain_child]

def generated_txs : List Transaction := [generated_coinbase, witness_parent, plain_child]

/-- The byte strings that are hashed for the ids and the merkle root of that block. -/
def generated_bytes : List (List UInt8) :=
  let level := generated_txs.map Transaction.txid
  let next := next_level (hash_pair Env.op_true.hash256) level
  generated_txs.map (fun tx => serialize_transaction tx false) ++
    (level_pairs level ++ level_pairs next).map fun children => Uint256.data children.1 ++ Uint256.data children.2

/-- What the witnesses below evaluate: the links and sizes of the two transactions, and the block
    over them with the byte strings that are hashed for it. -/
theorem generated_facts :
    (∀ a ∈ [witness_parent, plain_child], ∀ b ∈ [witness_parent, plain_child],
      (∃ input ∈ b.vin, input.prevout.hash = a.txid) → a = witness_parent ∧ b = plain_child) ∧
    (∀ tx ∈ [witness_parent, plain_child], tx.vin.length ≤ MAX_SIZE ∧
      (∀ input ∈ tx.vin, input.script_sig.data.length ≤ MAX_SIZE ∧ input.witness.Sized) ∧ tx.vout.length ≤ MAX_SIZE ∧
        (∀ output ∈ tx.vout, IntType.i64.fits output.value ∧ output.script_pubkey.data.length ≤ MAX_SIZE) ∧ tx.vin ≠ []) ∧
    (first_generated [plain_child, witness_parent]).toOption.map Block.vtx = some generated_txs ∧
    (generated_bytes.map Env.op_true.hash256).Nodup ∧
    (∀ tx ∈ [witness_parent, plain_child], tx.vin.map TxIn.without_witness ≠ generated_coinbase.vin.map TxIn.without_witness) ∧
    ([plain_child, witness_parent].map Transaction.txid).Perm (pool_of [plain_child, witness_parent]).entries.keys := by
  decide +kernel

theorem witness_parent_no_cycle : NoCycle [witness_parent, plain_child] := by
  obtain ⟨hlinks, _⟩ := generated_facts
  have hne : witness_parent.vout ≠ plain_child.vout := by decide
  intro tx hcycle
  obtain ⟨_, hfirst, _⟩ := Relation.TransGen.head'_iff.mp hcycle
  obtain ⟨_, _, hlast⟩ := Relation.TransGen.tail'_iff.mp hcycle
  have hparent := (hlinks _ hfirst.1 _ hfirst.2.1 hfirst.2.2).1
  have hchild := (hlinks _ hlast.1 _ hlast.2.1 hlast.2.2).2
  exact hne (congrArg Transaction.vout (hparent.symm.trans hchild))

theorem sendable_witness_parent : ∀ tx ∈ [witness_parent, plain_child], Sendable Env.op_true.hash256 tx := by
  intro tx hmem
  obtain ⟨_, hsized, _⟩ := generated_facts
  obtain ⟨hvin, hinputs, hvout, houtputs, hne⟩ := hsized tx hmem
  refine ⟨?_, .inl hne, hvin, hinputs, hvout, houtputs⟩
  obtain rfl | hmem := List.mem_cons.mp hmem
  · rfl
  · obtain rfl := List.mem_singleton.mp hmem
    rfl

theorem first_generated_eq : ∃ block, first_generated [plain_child, witness_parent] = .ok block ∧ block.vtx = generated_txs := by
  obtain ⟨_, _, hblock, _⟩ := generated_facts
  cases hgenerate : first_generated [plain_child, witness_parent] with
  | error e =>
    rw [hgenerate] at hblock
    cases hblock
  | ok block =>
    rw [hgenerate] at hblock
    exact ⟨block, rfl, Option.some.inj hblock⟩

theorem generated_bytes_injOn {block : Block} (hvtx : block.vtx = generated_txs) :
    Set.InjOn Env.op_true.hash256 (merkle_bytes .op_true block) := by
  have hpairs : hashed_pairs (hash_pair Env.op_true.hash256) (generated_txs.map Transaction.txid) ⊆
      { children | children ∈ level_pairs (generated_txs.map Transaction.txid) ++
        level_pairs (next_level (hash_pair Env.op_true.hash256) (generated_txs.map Transaction.txid)) } := by
    intro children hmem
    obtain hmem | hmem := hashed_pairs_subset _ hmem
    · exact List.mem_append_left _ hmem
    · obtain hmem | hmem := hashed_pairs_subset _ hmem
      · exact List.mem_append_right _ hmem
      · rw [show next_level (hash_pair Env.op_true.hash256) (next_level (hash_pair Env.op_true.hash256)
          (generated_txs.map Transaction.txid)) = [_] from rfl, hashed_pairs_singleton] at hmem
        cases hmem
  have hbytes : merkle_bytes .op_true block ⊆ { bytes | bytes ∈ generated_bytes } := by
    unfold merkle_bytes
    rw [hvtx]
    rintro bytes (⟨tx, hmem, rfl⟩ | ⟨children, hmem, rfl⟩)
    · exact List.mem_append_left _ (List.mem_map_of_mem hmem)
    · exact List.mem_append_right _ (List.mem_map_of_mem (hpairs hmem))
  obtain ⟨_, _, _, hnodup, _⟩ := generated_facts
  intro left hleft right hright hhash
  exact List.inj_on_of_nodup_map hnodup (hbytes hleft) (hbytes hright) hhash

theorem generated_block_mined_parent_first : ∃ block, first_generated [plain_child, witness_parent] = .ok block ∧
    Mined .op_true (pool_of [plain_child, witness_parent]) ([plain_child, witness_parent].map Transaction.txid) 1 block := by
  obtain ⟨block, hgenerate, hvtx⟩ := first_generated_eq
  obtain ⟨_, _, _, _, hvin, horder⟩ := generated_facts
  have hsub : pool_txs (pool_of [plain_child, witness_parent]) ⊆ [witness_parent, plain_child] :=
    List.Subset.trans (pool_of_sublist _).subset (List.Perm.swap _ _ []).subset
  have hfresh : ∀ coinbase ∈ block.vtx.head?, ∀ tx ∈ [witness_parent, plain_child],
      tx.without_witness Env.op_true.hash256 ≠ coinbase.without_witness Env.op_true.hash256 := by
    rw [hvtx]
    rintro _ ⟨⟩ tx hmem hsame
    exact hvin tx hmem (congrArg Transaction.vin hsame)
  refine ⟨block, hgenerate, generated_block_mined (keyed_pool_of _) (witness_parent_no_cycle.mono hsub)
    (fun tx hmem => sendable_witness_parent tx (hsub hmem)) ((pool_of_sublist _).length_le.trans_lt (by decide)) horder
    (by decide) (by rintro _ _ ⟨⟩) hgenerate (generated_bytes_injOn hvtx) fun coinbase hcoinbase tx hmem => hfresh coinbase hcoinbase tx (hsub hmem)⟩

/-- A pool without cycles whose transactions carry their ids, and a block over it that is not as it
    should be. -/
def FailsOver (txs : List Transaction) : Prop :=
  Keyed (pool_of txs) ∧ NoCycle (pool_txs (pool_of txs)) ∧
    (∀ tx ∈ pool_txs (pool_of txs), tx.Identified Env.op_true.hash256) ∧
      ∃ block, first_generated txs = .ok block ∧ ¬ Mined .op_true (pool_of txs) (txs.map Transaction.txid) 1 block

theorem failsOver_of {tx : Transaction} (hids : tx.Identified Env.op_true.hash256) (hspends : ¬ mempool.Spends tx tx.txid)
    {block : Block} (hgenerate : first_generated [tx] = .ok block)
    (hread : (((Block.decode Env.op_true.hash256).run block.encode).toOption.any fun read =>
      decide (check_merkle .op_true read.1 true = .ok ())) = false) : FailsOver [tx] := by
  have hsub : ∀ other ∈ pool_txs (pool_of [tx]), other = tx :=
    fun other hmem => List.mem_singleton.mp ((pool_of_sublist [tx]).subset hmem)
  refine ⟨keyed_pool_of _, ?_, fun other hmem => hsub other hmem ▸ hids, block, hgenerate, ?_⟩
  · intro other hcycle
    obtain ⟨_, hfirst, _⟩ := Relation.TransGen.head'_iff.mp hcycle
    obtain ⟨hparent, hchild, hlink⟩ := hfirst
    rw [hsub _ hparent, hsub _ hchild] at hlink
    exact hspends hlink
  · rintro ⟨_, _, decoded, hdecode, hmerkle, _⟩
    rw [hdecode] at hread
    exact of_decide_eq_false hread hmerkle

/-- A transaction without inputs, with an output. -/
def inputless_tx : Transaction := .new Env.op_true.hash256 2 [] [⟨100000, ⟨[0x51]⟩⟩] 0

def own_coinbase : Transaction := coinbase_tx Env.op_true.hash256 1 5000000000 ⟨[0x51]⟩ []

/-- The block over a transaction without inputs is not read back, and the block over its own
    coinbase is mutated. -/
theorem generated_block_fails : FailsOver [inputless_tx] ∧ FailsOver [own_coinbase] := by
  constructor
  · exact failsOver_of rfl (by decide +kernel) rfl (by decide +kernel)
  · exact failsOver_of rfl (by decide +kernel) rfl (by decide +kernel)

end qubitcoin.qubitcoind
