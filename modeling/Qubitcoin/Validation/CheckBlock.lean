import Qubitcoin.Validation.ScriptCheck
import Qubitcoin.Consensus.Check
import Qubitcoin.Consensus.Merkle
import Qubitcoin.Chain.Index

/-! `qubitcoin-node/validation.rs`: the context-free checks of a block. -/

open qubitcoin primitives script transaction block params check validation_state merkle

namespace qubitcoin.validation

def MAX_BLOCK_SERIALIZED_SIZE : Nat := 4000000

variable (env : Env)

/-- The header hash meets the target that the header claims. -/
def check_block_header (header : BlockHeader) (params : ConsensusParams) :
    Except (Failure BlockValidationState) Unit :=
  require (check_proof_of_work (header.block_hash env.hash256) header.bits params)
    (block_invalid .InvalidHeader "high-hash" "proof of work failed")

def compact_size_len (n : Nat) : Nat :=
  if n < 253 then 1
  else if n ≤ 0xffff then 3
  else if n ≤ 0xffffffff then 5
  else 9

def compute_block_weight (block : Block) : Nat :=
  let txcount_len := compact_size_len block.vtx.length
  let base_size := 80 + txcount_len + (block.vtx.map fun tx => (serialize_transaction tx false).length).sum
  let total_size := 80 + txcount_len + (block.vtx.map fun tx => (serialize_transaction tx true).length).sum
  base_size * (WITNESS_SCALE_FACTOR - 1) + total_size

/-- The merkle root of the header is that of the transactions, and the tree has
    no duplicated pair. -/
def check_merkle (block : Block) (check_merkle_root : Bool) : Except (Failure BlockValidationState) Unit :=
  if check_merkle_root then do
    let (calculated_root, mutated) := block_merkle_root env.hash256 block.vtx
    require (block.header.merkle_root == calculated_root)
      (block_invalid .MutatedBlock "bad-txnmrklroot" "hashMerkleRoot mismatch")
    require (!mutated) (block_invalid .MutatedBlock "bad-txns-duplicate" "duplicate transaction")
  else .ok ()

def check_coinbase_first (txs : List Transaction) : Except (Failure BlockValidationState) Unit :=
  match txs with
  | [] => .error (block_invalid .Consensus "bad-cb-missing" "first tx is not coinbase")
  | first :: rest => do
    require first.is_coinbase (block_invalid .Consensus "bad-cb-missing" "first tx is not coinbase")
    require (rest.all fun tx => !tx.is_coinbase)
      (block_invalid .Consensus "bad-cb-multiple" "more than one coinbase")

/-- Check transactions one after the other, with the rejection of the first that
    fails as a block rejection. -/
def check_transactions : List Transaction → Except (Failure BlockValidationState) Unit
  | [] => .ok ()
  | tx :: rest => do
    (check_transaction tx).mapError as_block_failure
    check_transactions rest

/-- Context-free block validation. Writing a block to memory does not fail, so
    the rejection for that is absent. -/
def check_block (block : Block) (params : ConsensusParams) (check_merkle_root : Bool) :
    Except (Failure BlockValidationState) Unit := do
  check_block_header env block.header params
  require (!params.signet_blocks || env.check_signet_block_solution block params)
    (block_invalid .Consensus "bad-signet-blksig" "signet block signature validation failure")
  check_merkle env block check_merkle_root
  require (decide (block.encode.length ≤ MAX_BLOCK_SERIALIZED_SIZE))
    (block_invalid .Consensus "bad-blk-length" "size limits failed")
  require (decide (compute_block_weight block ≤ MAX_BLOCK_WEIGHT))
    (block_invalid .Consensus "bad-blk-weight" "weight limit failed")
  check_coinbase_first block.vtx
  check_transactions block.vtx
  require (decide ((block.vtx.map get_legacy_sigop_count).sum * WITNESS_SCALE_FACTOR ≤ MAX_BLOCK_SIGOPS_COST))
    (block_invalid .Consensus "bad-blk-sigops" "out-of-bounds SigOpCount")
  -- A `HashSet` of the ids seen so far refuses a second occurrence.
  require (decide (block.vtx.map Transaction.txid).Nodup)
    (block_invalid .Consensus "bad-txns-duplicate" "duplicate transaction")

/-- The shape that `check_block` demands: the first transaction is a coinbase,
    and no other is. -/
def CoinbaseFirst (txs : List Transaction) : Prop :=
  (∀ tx ∈ txs.head?, tx.is_coinbase = true) ∧ ∀ tx ∈ txs.tail, tx.is_coinbase = false

/-- What later validation relies on. -/
structure CheckedBlock (block : Block) : Prop where
  nonempty : block.vtx ≠ []
  coinbase_first : CoinbaseFirst block.vtx
  checked : ∀ tx ∈ block.vtx, Checked tx
  txids_nodup : (block.vtx.map Transaction.txid).Nodup
  sigops : (block.vtx.map get_legacy_sigop_count).sum * 4 ≤ 80000

theorem check_transactions_ok {txs : List Transaction} (hcheck : check_transactions txs = .ok ()) :
    ∀ tx ∈ txs, Checked tx := by
  induction txs with
  | nil => simp
  | cons tx rest ih =>
    unfold check_transactions at hcheck
    obtain ⟨_, htx, hrest⟩ := bind_eq_ok_iff.mp hcheck
    intro other hmem
    rcases List.mem_cons.mp hmem with rfl | hmem
    · exact check_transaction_ok (mapError_eq_ok.mp htx)
    · exact ih hrest other hmem

theorem check_coinbase_first_ok {txs : List Transaction} (hcheck : check_coinbase_first txs = .ok ()) :
    txs ≠ [] ∧ CoinbaseFirst txs := by
  unfold check_coinbase_first at hcheck
  split at hcheck
  · cases hcheck
  · next first rest =>
    obtain ⟨_, hfirst, hrest⟩ := bind_eq_ok_iff.mp hcheck
    have hfirst := require_eq_ok.mp hfirst
    have hrest := require_eq_ok.mp hrest
    refine ⟨by simp, ?_, ?_⟩
    · intro tx hmem
      cases hmem
      exact hfirst
    · simpa using hrest

theorem check_block_ok {block : Block} {params : ConsensusParams} {check_merkle_root : Bool}
    (hcheck : check_block env block params check_merkle_root = .ok ()) : CheckedBlock block := by
  unfold check_block at hcheck
  obtain ⟨_, _, hcheck⟩ := bind_eq_ok_iff.mp hcheck
  obtain ⟨_, _, hcheck⟩ := bind_eq_ok_iff.mp hcheck
  obtain ⟨_, _, hcheck⟩ := bind_eq_ok_iff.mp hcheck
  obtain ⟨_, _, hcheck⟩ := bind_eq_ok_iff.mp hcheck
  obtain ⟨_, _, hcheck⟩ := bind_eq_ok_iff.mp hcheck
  obtain ⟨_, hshape, hcheck⟩ := bind_eq_ok_iff.mp hcheck
  obtain ⟨_, htxs, hcheck⟩ := bind_eq_ok_iff.mp hcheck
  obtain ⟨_, hsigops, hnodup⟩ := bind_eq_ok_iff.mp hcheck
  obtain ⟨hnonempty, hshape⟩ := check_coinbase_first_ok hshape
  exact ⟨hnonempty, hshape, check_transactions_ok htxs, of_decide_eq_true (require_eq_ok.mp hnodup),
    of_decide_eq_true (require_eq_ok.mp hsigops)⟩

end qubitcoin.validation

/-! `qubitcoin-node/validation.rs`: the checks of a header and of a block that
    depend on the chain before it. -/

open qubitcoin chain pow

namespace qubitcoin.validation

def MAX_FUTURE_BLOCK_TIME : Int := 2 * 60 * 60

/-- One of the three version rules: from its height on, a minimal version. -/
def check_version (header : BlockHeader) (height activation : Int) (minimum : Int32) (bip : String) :
    Except (Failure BlockValidationState) Unit :=
  require (!(decide (activation ≠ -1) && decide (activation ≤ height) && decide (header.version < minimum)))
    (block_invalid .Consensus "bad-version" ("rejected nVersion=" ++ toString header.version ++
      " block at height " ++ toString height ++ " (" ++ bip ++ " requires >= " ++ toString minimum ++ ")"))

/-- Time and compact target of the first block of the retarget period, at a
    retarget boundary. Elsewhere the time is unused. -/
def first_of_period (arena : List BlockIndex) (prev_index : BlockIndex) (prev_arena_idx : Nat)
    (interval : Int) : UInt32 × UInt32 :=
  if 0 < interval ∧ interval - 1 ≤ prev_index.height ∧ (prev_index.height + 1).tmod interval = 0 then
    match (get_ancestor arena prev_arena_idx (prev_index.height - (interval - 1))).bind (arena[·]?) with
    | some first => (first.time, first.bits)
    | none => (prev_index.time, prev_index.bits)
  else (0, prev_index.bits)

/-- The walk back over blocks that used the minimum-difficulty exception. It ends
    within the number of entries. -/
def last_non_special_bits_loop (arena : List BlockIndex) (interval : Int) (pow_limit_bits : UInt32) :
    Nat → BlockIndex → UInt32
  | 0, blk => blk.bits
  | fuel + 1, blk =>
    if blk.height.tmod interval = 0 ∨ blk.bits ≠ pow_limit_bits then blk.bits
    else
      match blk.prev.bind (arena[·]?) with
      | some prev => last_non_special_bits_loop arena interval pow_limit_bits fuel prev
      | none => blk.bits

/-- The target that a header on top of an entry of the arena must claim. -/
def expected_bits (header : BlockHeader) (prev_index : BlockIndex) (params : ConsensusParams)
    (arena : List BlockIndex) (prev_arena_idx : Nat) : UInt32 :=
  let interval := params.difficulty_adjustment_interval
  let (first_time, first_bits) := first_of_period arena prev_index prev_arena_idx interval
  let last_non_special_bits := if params.pow_allow_min_difficulty_blocks then
      last_non_special_bits_loop arena interval
        (ArithUint256.get_compact (uint256_to_arith params.pow_limit) false) arena.length prev_index
    else prev_index.bits
  get_next_work_required prev_index.height prev_index.bits prev_index.time first_time first_bits
    header.time last_non_special_bits params

/-- The header checks that need the chain: version, time and difficulty. `now` is
    the system time in seconds. -/
def contextual_check_block_header_with_arena (header : BlockHeader) (prev_index : BlockIndex)
    (params : ConsensusParams) (arena : List BlockIndex) (prev_arena_idx : Nat) (now : Int) :
    Except (Failure BlockValidationState) Unit := do
  let height ← checked .i32 (prev_index.height + 1)
  check_version header height params.bip34_height 2 "BIP34"
  check_version header height params.bip66_height 3 "BIP66"
  check_version header height params.bip65_height 4 "BIP65"
  require (decide (compute_mtp arena prev_arena_idx < header.time.toNat))
    (block_invalid .InvalidHeader "time-too-old" "block's timestamp is too early")
  require (decide (header.time.toNat ≤ now + MAX_FUTURE_BLOCK_TIME))
    (block_invalid .InvalidHeader "time-too-new" "block timestamp too far in the future")
  require (!(params.enforce_bip94 && decide (0 < params.difficulty_adjustment_interval) &&
      decide (height.tmod params.difficulty_adjustment_interval = 0) &&
      decide (header.time.toNat < prev_index.get_block_time - MAX_TIMEWARP)))
    (block_invalid .InvalidHeader "time-timewarp-attack"
      "block's timestamp is too early on diff adjustment block")
  let expected := expected_bits header prev_index params arena prev_arena_idx
  require (header.bits == expected || params.pow_no_retargeting)
    (block_invalid .InvalidHeader "bad-diffbits" ("incorrect proof of work: expected 0x" ++
      BitVec.toHex expected.toBitVec ++ ", got 0x" ++ BitVec.toHex header.bits.toBitVec))

def LOCKTIME_THRESHOLD : UInt32 := 500000000

/-- Whether a transaction is final at a height and a time. -/
def check_lock_time (tx : Transaction) (height lock_time_cutoff : Int) : Bool :=
  if tx.lock_time = 0 then true
  else if tx.vin.all fun input => input.sequence == SEQUENCE_FINAL then true
  else if tx.lock_time < LOCKTIME_THRESHOLD then decide (as_i32 tx.lock_time < height)
  else decide (tx.lock_time.toNat < lock_time_cutoff)

def is_witness_commitment (script : Script) : Bool :=
  decide (38 ≤ script.data.length) && script.data.take 6 == [0x6a, 0x24, 0xaa, 0x21, 0xa9, 0xed]

/-- Check the last witness commitment of the coinbase: `none` when there is none. -/
def check_witness_commitment (env : Env) (block : Block) : Option Bool :=
  match block.vtx with
  | [] => none
  | coinbase :: _ =>
    match coinbase.vout.reverse.find? fun output => is_witness_commitment output.script_pubkey with
    | none => none
    | some output =>
      let witness_root := (block_witness_merkle_root env.hash256 block.vtx).1
      match coinbase.vin.head?.map fun input => input.witness.stack with
      | some [witness_reserved] =>
        if witness_reserved.length = 32 then
          let expected_commitment := env.hash256 (Uint256.data witness_root ++ witness_reserved)
          some ((output.script_pubkey.data.drop 6).take 32 == Uint256.data expected_commitment)
        else some false
      | _ => some false

/-- Little-endian magnitude bytes of a script number. -/
def magnitude_bytes : Nat → Nat → List UInt8
  | 0, _ => []
  | fuel + 1, v => if v = 0 then [] else UInt8.ofNat (v % 256) :: magnitude_bytes fuel (v / 256)

/-- The script bytes that push a block height. -/
def encode_height (height : Int) : List UInt8 :=
  if height = 0 then [0x00]
  else if 1 ≤ height ∧ height ≤ 16 then [0x50 + UInt8.ofNat height.toNat]
  else
    let negative := decide (height < 0)
    let result := magnitude_bytes 8 height.natAbs
    let result := match result.getLast? with
      | some last =>
        if last &&& 0x80 ≠ 0 then result ++ [if negative then 0x80 else 0x00]
        else if negative then result.dropLast ++ [last ||| 0x80]
        else result
      | none => result
    UInt8.ofNat result.length :: result

/-- The witness rules of a block, where segwit is active. -/
def check_witness_rules (env : Env) (block : Block) : Except (Failure BlockValidationState) Unit :=
  match check_witness_commitment env block with
  | some matched => require matched
      (block_invalid .MutatedBlock "bad-witness-merkle-match" "witness merkle commitment mismatch")
  | none => require (block.vtx.all fun tx => !tx.has_witness)
      (block_invalid .MutatedBlock "unexpected-witness" "unexpected witness data found")

def check_coinbase_height (block : Block) (height : Int) : Except (Failure BlockValidationState) Unit :=
  match block.vtx with
  | [] => .error (block_invalid .Consensus "bad-cb-missing" "block has no transactions")
  | coinbase :: _ =>
    match coinbase.vin with
    | [] => .error (block_invalid .Consensus "bad-cb-missing" "coinbase has no inputs")
    | input :: _ =>
      let expected_height := encode_height height
      require (input.script_sig.data.take expected_height.length == expected_height)
        (block_invalid .Consensus "bad-cb-height" "block height mismatch in coinbase")

def contextual_check_block (env : Env) (block : Block) (prev_height prev_median_time : Int)
    (params : ConsensusParams) : Except (Failure BlockValidationState) Unit := do
  let height ← checked .i32 (prev_height + 1)
  let lock_time_cutoff := if params.csv_height ≤ height then prev_median_time else block.header.get_block_time
  require (block.vtx.all fun tx => check_lock_time tx height lock_time_cutoff)
    (block_invalid .Consensus "bad-txns-nonfinal" "transaction is not final")
  let segwit_active := decide (params.segwit_height ≤ height)
  if segwit_active then check_witness_rules env block else .ok ()
  require (!segwit_active || decide (compute_block_weight block ≤ MAX_BLOCK_WEIGHT))
    (block_invalid .Consensus "bad-blk-weight" "weight limit failed")
  if params.bip34_height ≤ height ∧ params.bip34_height ≠ -1 then check_coinbase_height block height else .ok ()

end qubitcoin.validation

/-! Bodies that do not belong to their header. The checks of a body return on every
    block, so such a body is refused and not a crash. -/

namespace qubitcoin

/-- The computation does not panic. -/
def Returns {S A : Type} (x : Except (Failure S) A) : Prop := ∀ why, x ≠ .error (.panic why)

namespace Returns

variable {S A B : Type}

theorem ok (a : A) : Returns (S := S) (.ok a) := nofun

theorem invalid (state : S) : Returns (A := A) (.error (.invalid state)) := nofun

theorem bind {x : Except (Failure S) A} {f : A → Except (Failure S) B} (hx : Returns x)
    (hf : ∀ a, x = .ok a → Returns (f a)) : Returns (x >>= f) := by
  cases x with
  | error e =>
    intro why heq
    cases heq
    exact hx why rfl
  | ok a => exact hf a rfl

theorem require {c : Bool} {state : S} : Returns (require c (.invalid state)) := by
  unfold qubitcoin.require
  split
  · exact .ok ()
  · exact .invalid state

theorem checked {type : IntType} {x : Int} (hfits : type.fits x) : Returns (S := S) (checked type x) := by
  unfold qubitcoin.checked
  rw [if_pos hfits]
  exact .ok x

theorem exists_invalid {x : Except (Failure S) A} {e : Failure S} (hx : Returns x) (herror : x = .error e) :
    ∃ state, e = .invalid state := by
  cases e with
  | invalid state => exact ⟨state, rfl⟩
  | panic why => exact absurd herror (hx why)

end Returns

namespace validation

variable (env : Env)

theorem check_output_values_returns {outputs : List TxOut} :
    ∀ {total : Amount}, money_range total = true → Returns (check_output_values total outputs) := by
  induction outputs with
  | nil => exact fun _ => .ok ()
  | cons output rest ih =>
    intro total htotal
    unfold check_output_values
    refine .bind .require fun _ _ => .bind .require fun _ hvalue => ?_
    have hvalue := money_range_iff.mp (require_eq_ok.mp hvalue)
    have htotal := money_range_iff.mp htotal
    have hfits : IntType.Amount.fits (total + output.value) := by
      constructor <;> norm_num <;> omega
    refine .bind (.checked hfits) fun sum _ => .bind .require fun _ hsum => ?_
    exact ih (require_eq_ok.mp hsum)

theorem check_transaction_returns (tx : Transaction) : Returns (check_transaction tx) := by
  unfold check_transaction
  refine .bind .require fun _ _ => .bind .require fun _ _ => .bind .require fun _ _ => ?_
  refine .bind (check_output_values_returns (by decide)) fun _ _ => .bind .require fun _ _ => ?_
  split
  · exact .require
  · exact .require

theorem check_transactions_returns (txs : List Transaction) : Returns (check_transactions txs) := by
  induction txs with
  | nil => exact .ok ()
  | cons tx rest ih =>
    unfold check_transactions
    refine .bind ?_ fun _ _ => ih
    have htx := check_transaction_returns tx
    intro why heq
    cases hcheck : check_transaction tx with
    | ok _ =>
      rw [hcheck] at heq
      cases heq
    | error e =>
      obtain ⟨state, rfl⟩ := htx.exists_invalid hcheck
      rw [hcheck] at heq
      cases heq

theorem check_merkle_returns (block : Block) (check_merkle_root : Bool) :
    Returns (check_merkle env block check_merkle_root) := by
  unfold check_merkle
  split
  · exact .bind .require fun _ _ => .require
  · exact .ok ()

theorem check_coinbase_first_returns (txs : List Transaction) : Returns (check_coinbase_first txs) := by
  unfold check_coinbase_first
  split
  · exact .invalid _
  · exact .bind .require fun _ _ => .require

theorem check_block_returns (block : Block) (params : ConsensusParams) (check_merkle_root : Bool) :
    Returns (check_block env block params check_merkle_root) := by
  unfold check_block
  refine .bind .require fun _ _ => .bind .require fun _ _ => ?_
  refine .bind (check_merkle_returns env block check_merkle_root) fun _ _ => ?_
  refine .bind .require fun _ _ => .bind .require fun _ _ => ?_
  refine .bind (check_coinbase_first_returns block.vtx) fun _ _ => ?_
  exact .bind (check_transactions_returns block.vtx) fun _ _ => .bind .require fun _ _ => .require

theorem check_witness_rules_returns (block : Block) : Returns (check_witness_rules env block) := by
  unfold check_witness_rules
  split
  · exact .require
  · exact .require

theorem check_coinbase_height_returns (block : Block) (height : Int) :
    Returns (check_coinbase_height block height) := by
  unfold check_coinbase_height
  split
  · exact .invalid _
  · split
    · exact .invalid _
    · exact .require

theorem contextual_check_block_returns (block : Block) {prev_height : Int} (prev_median_time : Int)
    (params : ConsensusParams) (hfits : IntType.i32.fits (prev_height + 1)) :
    Returns (contextual_check_block env block prev_height prev_median_time params) := by
  unfold contextual_check_block
  refine .bind (.checked hfits) fun height _ => .bind .require fun _ _ => ?_
  have hrest : ∀ segwit_active : Bool, Returns (do
      require (!segwit_active || decide (compute_block_weight block ≤ MAX_BLOCK_WEIGHT))
        (block_invalid .Consensus "bad-blk-weight" "weight limit failed")
      if params.bip34_height ≤ height ∧ params.bip34_height ≠ -1 then check_coinbase_height block height
      else .ok ()) := by
    intro segwit_active
    refine .bind .require fun _ _ => ?_
    split
    · exact check_coinbase_height_returns block height
    · exact .ok ()
  dsimp only
  split
  · exact .bind (check_witness_rules_returns env block) fun _ _ => hrest _
  · exact .bind (.ok ()) fun _ _ => hrest _

/-- The transactions of a block are not those of its header: the merkle root is
    another or has a duplicated pair, or, where segwit is active, the witness data is
    not what the coinbase commits to. -/
def Mutated (block : Block) (segwit_active : Bool) : Prop :=
  (∃ e, check_merkle env block true = .error e) ∨ segwit_active = true ∧ ∃ e, check_witness_rules env block = .error e

theorem Mutated.refused {block : Block} {prev_height : Int} {params : ConsensusParams}
    (hmutated : Mutated env block (decide (params.segwit_height ≤ prev_height + 1))) (prev_median_time : Int) :
    check_block env block params true ≠ .ok () ∨
      contextual_check_block env block prev_height prev_median_time params ≠ .ok () := by
  obtain ⟨e, hmerkle⟩ | ⟨hactive, e, hwitness⟩ := hmutated
  · refine .inl fun hcheck => ?_
    unfold check_block at hcheck
    obtain ⟨_, _, hcheck⟩ := bind_eq_ok_iff.mp hcheck
    obtain ⟨_, _, hcheck⟩ := bind_eq_ok_iff.mp hcheck
    obtain ⟨_, hroot, _⟩ := bind_eq_ok_iff.mp hcheck
    rw [hmerkle] at hroot
    cases hroot
  · refine .inr fun hcheck => ?_
    unfold contextual_check_block at hcheck
    obtain ⟨height, hheight, hcheck⟩ := bind_eq_ok_iff.mp hcheck
    obtain ⟨rfl, _⟩ := checked_eq_ok.mp hheight
    obtain ⟨_, _, hcheck⟩ := bind_eq_ok_iff.mp hcheck
    dsimp only at hcheck
    rw [if_pos hactive] at hcheck
    obtain ⟨_, hrules, _⟩ := bind_eq_ok_iff.mp hcheck
    rw [hwitness] at hrules
    cases hrules

end validation

end qubitcoin
