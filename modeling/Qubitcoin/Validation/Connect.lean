import Qubitcoin.Validation.ScriptCheck
import Qubitcoin.Consensus.Check

/-! `qubitcoin-node/validation.rs`: script flags, relative lock times and the
    input checks of a transaction. -/

open qubitcoin primitives script transaction block coins params check validation_state

namespace qubitcoin.validation

def get_block_script_flags (height : Int) (block_hash : BlockHash) (params : ConsensusParams) : UInt32 :=
  match params.script_flag_exceptions.lookup block_hash with
  | some raw_flags => ScriptVerifyFlags.from_bits_truncate raw_flags
  | none =>
    let flags := ScriptVerifyFlags.P2SH ||| ScriptVerifyFlags.WITNESS ||| ScriptVerifyFlags.TAPROOT
    let flags := if params.bip66_height ≤ height then flags ||| ScriptVerifyFlags.DERSIG else flags
    let flags := if params.bip65_height ≤ height then flags ||| ScriptVerifyFlags.CHECKLOCKTIMEVERIFY else flags
    let flags := if params.csv_height ≤ height then flags ||| ScriptVerifyFlags.CHECKSEQUENCEVERIFY else flags
    if params.segwit_height ≤ height then flags ||| ScriptVerifyFlags.NULLDUMMY else flags

def LOCKTIME_VERIFY_SEQUENCE : Int := 1

/-- The last height and the last median time at which a transaction is not yet
    final; `-1` is no constraint. -/
structure SequenceLockPair where
  height : Int
  time : Int
  deriving DecidableEq, Repr

/-- The input loop of `calculate_sequence_locks` over inputs and the heights of
    their coins. The heights of inputs that are not locked are set to zero. -/
def sequence_locks_from {S : Type} (median_time_past_at : Int → Int) :
    SequenceLockPair → List (TxIn × Int) → Except (Failure S) (SequenceLockPair × List Int)
  | locks, [] => .ok (locks, [])
  | locks, (input, coin_height) :: rest =>
    if input.sequence &&& SEQUENCE_LOCKTIME_DISABLE_FLAG ≠ 0 then do
      let (locks, prev_heights) ← sequence_locks_from median_time_past_at locks rest
      .ok (locks, 0 :: prev_heights)
    else if input.sequence &&& SEQUENCE_LOCKTIME_TYPE_FLAG ≠ 0 then do
      let before ← checked .i32 (coin_height - 1)
      let coin_time := median_time_past_at (max before 0)
      let relative_time : Int :=
        ((input.sequence &&& SEQUENCE_LOCKTIME_MASK).toNat <<< SEQUENCE_LOCKTIME_GRANULARITY : Nat)
      let sum ← checked .i64 (coin_time + relative_time)
      let time ← checked .i64 (sum - 1)
      let (locks, prev_heights) ←
        sequence_locks_from median_time_past_at { locks with time := max locks.time time } rest
      .ok (locks, coin_height :: prev_heights)
    else do
      let relative_height : Int := (input.sequence &&& SEQUENCE_LOCKTIME_MASK).toNat
      let sum ← checked .i32 (coin_height + relative_height)
      let height ← checked .i32 (sum - 1)
      let (locks, prev_heights) ←
        sequence_locks_from median_time_past_at { locks with height := max locks.height height } rest
      .ok (locks, coin_height :: prev_heights)

/-- The sequence locks of a transaction, and the coin heights as the loop leaves
    them. -/
def calculate_sequence_locks {S : Type} (tx : Transaction) (flags : Int) (prev_heights : List Int)
    (median_time_past_at : Int → Int) : Except (Failure S) (SequenceLockPair × List Int) :=
  if prev_heights.length ≠ tx.vin.length then
    .error (.panic (.assertion_failed "prev_heights.len() == tx.vin.len()"))
  else if ¬ (2 ≤ tx.version ∧ flags % 2 ≠ 0) then .ok (⟨-1, -1⟩, prev_heights)
  else sequence_locks_from median_time_past_at ⟨-1, -1⟩ (tx.vin.zip prev_heights)

def evaluate_sequence_locks (block_height prev_block_mtp : Int) (locks : SequenceLockPair) : Bool :=
  decide (locks.height < block_height) && decide (locks.time < prev_block_mtp)

/-- A coinbase output can be spent only `COINBASE_MATURITY` blocks later. -/
def check_maturity (spend_height : Int) (coin : Coin) : Except (Failure TxValidationState) Unit :=
  if coin.coinbase then do
    let maturity ← checked .i32 (spend_height - as_i32 coin.height)
    require (decide (COINBASE_MATURITY ≤ maturity))
      (tx_invalid .Consensus "bad-txns-premature-spend-of-coinbase"
        ("tried to spend coinbase at depth " ++ toString maturity))
  else .ok ()

/-- The input loop of `check_tx_inputs_with_coins`, from a running total. -/
def check_input_coins (spend_height : Int) :
    Amount → List (Option Coin) → Except (Failure TxValidationState) Amount
  | total_in, [] => .ok total_in
  | _, none :: _ => .error (tx_invalid .MissingInputs "bad-txns-inputs-missingorspent" "")
  | total_in, some coin :: rest => do
    require (!coin.is_spent) (tx_invalid .MissingInputs "bad-txns-inputs-missingorspent" "")
    check_maturity spend_height coin
    require (money_range coin.tx_out.value) (tx_invalid .Consensus "bad-txns-inputvalues-outofrange" "")
    let total_in ← checked .Amount (total_in + coin.tx_out.value)
    require (money_range total_in) (tx_invalid .Consensus "bad-txns-inputvalues-outofrange" "")
    check_input_coins spend_height total_in rest

/-- The context-dependent checks of a transaction on the coins it spends, and
    its fee. A coinbase passes with no fee. -/
def check_tx_inputs_with_coins (tx : Transaction) (input_coins : List (Option Coin)) (spend_height : Int) :
    Except (Failure TxValidationState) Amount :=
  if tx.is_coinbase then .ok 0
  else do
    let total_in ← check_input_coins spend_height 0 input_coins
    let total_out ← tx.get_value_out
    require (decide (total_out ≤ total_in)) (tx_invalid .Consensus "bad-txns-in-belowout"
      ("value in (" ++ toString total_in ++ ") < value out (" ++ toString total_out ++ ")"))
    let fee ← checked .Amount (total_in - total_out)
    require (money_range fee) (tx_invalid .Consensus "bad-txns-fee-outofrange" "")
    .ok fee

/-- The same checks against what a view shows. The fee is left as it is for a coinbase. -/
def check_tx_inputs (tx : Transaction) (view : OutPoint → Option Coin) (spend_height : Int) :
    Except (Failure TxValidationState) Amount :=
  check_tx_inputs_with_coins tx (tx.vin.map fun input => view input.prevout) spend_height

end qubitcoin.validation

/-! `qubitcoin-node/validation.rs` and `undo.rs`: connecting a block to a coins
    view and disconnecting it. -/

open qubitcoin.script_check

namespace qubitcoin.validation

/-- The coins that one transaction spent, in input order. -/
structure TxUndo where
  prev_coins : List Coin
  deriving DecidableEq, Repr

/-- One record for each transaction that is no coinbase. -/
structure BlockUndo where
  tx_undo : List TxUndo
  deriving DecidableEq, Repr

/-- The two mainnet blocks that repeat an earlier coinbase. -/
def is_bip30_exception (height : Int) (block_hash : BlockHash) : Bool :=
  (height == 91842 &&
    block_hash == 0x00000000000a4d0a398161ffc163c503763b1f4360639393e0e4c8e300e0caec) ||
  (height == 91880 &&
    block_hash == 0x00000000000743f190a18c5577a3c2d2a1f610ae9601ac046a38084ccb7cd721)

def BIP34_IMPLIES_BIP30_LIMIT : Int := 1983702

/-- Whether a block is checked for outputs that exist already. -/
def enforce_bip30 (params : ConsensusParams) (height : Int) (block_hash : BlockHash) : Bool :=
  !is_bip30_exception height block_hash &&
    (decide (height < params.bip34_height) || decide (BIP34_IMPLIES_BIP30_LIMIT ≤ height))

/-- The BIP30 loop: whether one of the outpoints has a coin. The lookups fill
    the cache, up to the first coin that is found. -/
def have_any_coin : List OutPoint → CoinsViewCache → Bool × CoinsViewCache
  | [], view => (false, view)
  | outpoint :: rest, view =>
    let (found, view) := view.have_coin outpoint
    if found then (true, view) else have_any_coin rest view

/-- All outpoints that the transactions create, in order. -/
def new_outpoints (txs : List Transaction) : List OutPoint :=
  txs.flatMap fun tx => (outpoints tx).map Prod.fst

/-- All outpoints that the transactions other than coinbases spend. -/
def all_input_outpoints (txs : List Transaction) : List OutPoint :=
  (txs.filter fun tx => !tx.is_coinbase).flatMap fun tx => tx.vin.map TxIn.prevout

def fetch_inputs : List TxIn → CoinsViewCache → List (Option Coin) × CoinsViewCache
  | [], view => ([], view)
  | input :: rest, view =>
    let (coin, view) := view.fetch_coin input.prevout
    let (coins, view) := fetch_inputs rest view
    (coin :: coins, view)

def spend_inputs : List TxIn → CoinsViewCache → CoinsViewCache
  | [], view => view
  | input :: rest, view => spend_inputs rest (view.spend_coin input.prevout).2

/-- What is fixed while the transactions of a block are connected. -/
structure ConnectContext where
  params : ConsensusParams
  height : Int
  /-- The header time of the block. -/
  block_time : Int
  script_flags : UInt32
  /-- Median times past by height; without them the header time stands in. -/
  mtp_at_height : Option (Int → Int)

/-- The running totals of the transaction loop. -/
structure ConnectTotals where
  total_fees : Amount
  n_sigops_cost : Nat
  deriving DecidableEq, Repr

def ConnectContext.locktime_flags (self : ConnectContext) : Int :=
  if self.params.csv_height ≤ self.height then LOCKTIME_VERIFY_SEQUENCE else 0

/-- The median time past of the parent block. -/
def ConnectContext.prev_block_mtp (self : ConnectContext) : Except (Failure BlockValidationState) Int :=
  match self.mtp_at_height with
  | some f => do
    let parent ← checked .i32 (self.height - 1)
    .ok (f parent)
  | none => .ok self.block_time

/-- The BIP68 check of a transaction. -/
def check_block_sequence_locks (ctx : ConnectContext) (tx : Transaction) (input_coins : List (Option Coin)) :
    Except (Failure BlockValidationState) Unit :=
  if ctx.locktime_flags = 0 then .ok ()
  else do
    let prev_heights := input_coins.map fun coin => (coin.map fun coin => as_i32 coin.height).getD 0
    let mtp_at := ctx.mtp_at_height.getD fun _ => ctx.block_time
    let (locks, _) ← calculate_sequence_locks tx ctx.locktime_flags prev_heights mtp_at
    let prev_block_mtp ← ctx.prev_block_mtp
    require (evaluate_sequence_locks ctx.height prev_block_mtp locks)
      (block_invalid .Consensus "bad-txns-nonfinal"
        ("contains a non-BIP68-final transaction " ++ BitVec.toHex tx.txid))

/-- The script of the first input that spends the outpoint, from the coins
    fetched for the inputs. -/
def prevout_script (tx : Transaction) (input_coins : List (Option Coin)) (outpoint : OutPoint) :
    Option Script :=
  match (tx.vin.zip input_coins).find? fun entry => entry.1.prevout == outpoint with
  | some (_, some coin) => some coin.tx_out.script_pubkey
  | _ => none

/-- Add the signature-operation cost of a transaction to the total. -/
def add_sigop_cost (ctx : ConnectContext) (tx : Transaction) (get_prevout_script : OutPoint → Option Script)
    (n_sigops_cost : Nat) : Except (Failure BlockValidationState) Nat := do
  let n_sigops_cost := n_sigops_cost + get_transaction_sigop_cost tx ctx.script_flags get_prevout_script
  require (decide (n_sigops_cost ≤ MAX_BLOCK_SIGOPS_COST))
    (block_invalid .Consensus "bad-blk-sigops" "too many sigops")
  .ok n_sigops_cost

/-- All checks that the transaction loop makes before it changes the view. -/
def check_connect_tx (ctx : ConnectContext) (tx : Transaction) (input_coins : List (Option Coin))
    (totals : ConnectTotals) : Except (Failure BlockValidationState) ConnectTotals :=
  if tx.is_coinbase then do
    let n_sigops_cost ← add_sigop_cost ctx tx (fun _ => none) totals.n_sigops_cost
    .ok { totals with n_sigops_cost }
  else do
    let tx_fee ← (check_tx_inputs_with_coins tx input_coins ctx.height).mapError as_block_failure
    let total_fees ← checked .Amount (totals.total_fees + tx_fee)
    require (money_range total_fees) (block_invalid .Consensus "bad-txns-accumulated-fee-outofrange"
      "accumulated fee in the block out of range")
    check_block_sequence_locks ctx tx input_coins
    let n_sigops_cost ← add_sigop_cost ctx tx (prevout_script tx input_coins) totals.n_sigops_cost
    .ok { total_fees, n_sigops_cost }

/-- The undo record of a transaction, if it gets one. -/
def tx_undo (tx : Transaction) (input_coins : List (Option Coin)) : List TxUndo :=
  if tx.is_coinbase then []
  else [⟨input_coins.map fun coin => coin.getD .empty⟩]

/-- One pass of the transaction loop: fetch the inputs, check, spend them and add
    the outputs. The view is returned also with a failure. -/
def connect_tx (ctx : ConnectContext) (tx : Transaction) (totals : ConnectTotals) (view : CoinsViewCache) :
    Except (Failure BlockValidationState) (ConnectTotals × List TxUndo) × CoinsViewCache :=
  let (input_coins, view) := if tx.is_coinbase then ([], view) else fetch_inputs tx.vin view
  match check_connect_tx ctx tx input_coins totals with
  | .error e => (.error e, view)
  | .ok totals =>
    let view := if tx.is_coinbase then view else spend_inputs tx.vin view
    match add_coins view tx (as_u32 ctx.height) false with
    | .error why => (.error (.panic why), view)
    | .ok view => (.ok (totals, tx_undo tx input_coins), view)

/-- The transaction loop, which collects the undo records. -/
def connect_txs (ctx : ConnectContext) : List Transaction → ConnectTotals → CoinsViewCache →
    Except (Failure BlockValidationState) (ConnectTotals × List TxUndo) × CoinsViewCache
  | [], totals, view => (.ok (totals, []), view)
  | tx :: rest, totals, view =>
    match connect_tx ctx tx totals view with
    | (.error e, view) => (.error e, view)
    | (.ok (totals, undo), view) =>
      match connect_txs ctx rest totals view with
      | (.error e, view) => (.error e, view)
      | (.ok (totals, undos), view) => (.ok (totals, undo ++ undos), view)

variable (env : Env)

/-- The script verification of a block against the coins of its undo records. -/
def check_block_scripts (block : Block) (undo : List TxUndo) (script_flags : UInt32) (skip_scripts : Bool) :
    Except (Failure BlockValidationState) Unit :=
  if skip_scripts then .ok ()
  else match collect_block_script_checks block.vtx (undo.map TxUndo.prev_coins) script_flags with
  | .error why => .error (.panic why)
  | .ok checks =>
    match verify_scripts_parallel env checks with
    | .error script_err => .error (block_invalid .Consensus "mandatory-script-verify-flag-failed"
        script_err.to_string)
    | .ok () => .ok ()

/-- The coinbase pays at most the fees and the subsidy. -/
def check_block_reward (block : Block) (height : Int) (params : ConsensusParams) (total_fees : Amount) :
    Except (Failure BlockValidationState) Unit := do
  let subsidy ← get_block_subsidy height params
  let max_reward ← checked .Amount (total_fees + subsidy)
  match block.vtx with
  | [] => .ok ()
  | coinbase :: _ =>
    let coinbase_out ← coinbase.get_value_out
    require (decide (coinbase_out ≤ max_reward)) (block_invalid .Consensus "bad-cb-amount"
      ("coinbase pays too much (actual=" ++ toString coinbase_out ++ " vs limit=" ++
        toString max_reward ++ ")"))

def connect_context (block : Block) (height : Int) (params : ConsensusParams)
    (mtp_at_height : Option (Int → Int)) : ConnectContext :=
  { params, height
    block_time := block.header.time.toNat
    script_flags := get_block_script_flags height (block.block_hash env.hash256) params
    mtp_at_height }

/-- What `connect_block` checks once all transactions are applied. -/
def check_connected (block : Block) (height : Int) (params : ConsensusParams) (skip_scripts : Bool)
    (script_flags : UInt32) (totals : ConnectTotals) (undo : List TxUndo) :
    Except (Failure BlockValidationState) Unit := do
  check_block_scripts env block undo script_flags skip_scripts
  check_block_reward block height params totals.total_fees

/-- The BIP30 check, where it is enforced. -/
def check_bip30 (block : Block) (height : Int) (params : ConsensusParams) (view : CoinsViewCache) :
    Bool × CoinsViewCache :=
  if enforce_bip30 params height (block.block_hash env.hash256) then have_any_coin (new_outpoints block.vtx) view
  else (false, view)

/-- Connect a block: check and apply its transactions one after the other, then
    verify the scripts and the reward. The view is changed in place, so it is
    returned with a rejection too. -/
def connect_block (block : Block) (height : Int) (view : CoinsViewCache) (params : ConsensusParams)
    (mtp_at_height : Option (Int → Int)) (skip_scripts : Bool) :
    Except (Failure BlockValidationState) BlockUndo × CoinsViewCache :=
  match check_bip30 env block height params view with
  | (true, view) => (.error (block_invalid .Consensus "bad-txns-BIP30" "tried to overwrite transaction"), view)
  | (false, view) =>
    let ctx := connect_context env block height params mtp_at_height
    let view := view.prefetch_coins (all_input_outpoints block.vtx)
    match connect_txs ctx block.vtx ⟨0, 0⟩ view with
    | (.error e, view) => (.error e, view)
    | (.ok (totals, undo), view) =>
      match check_connected env block height params skip_scripts ctx.script_flags totals undo with
      | .error e => (.error e, view)
      | .ok () => (.ok ⟨undo⟩, view)

inductive DisconnectResult where
  | Ok | Unclean | Failed
  deriving DecidableEq, Repr

/-- Put a spent coin back. A coin that exists already makes the result unclean. -/
def apply_tx_in_undo (undo_coin : Coin) (view : CoinsViewCache) (outpoint : OutPoint) :
    Except Panic (DisconnectResult × CoinsViewCache) :=
  let (exists_already, view) := view.have_coin outpoint
  if undo_coin.is_spent then .ok (.Failed, view)
  else
    match view.add_coin outpoint undo_coin exists_already with
    | .error why => .error why
    | .ok view => .ok (if exists_already then .Unclean else .Ok, view)

/-- Remove the spendable outputs of a transaction; the flag stays clean while
    every removed coin is the output as the block made it. -/
def remove_outputs (height : UInt32) (is_coinbase : Bool) :
    List (OutPoint × TxOut) → CoinsViewCache → Bool × CoinsViewCache
  | [], view => (true, view)
  | (outpoint, output) :: rest, view =>
    if output.script_pubkey.is_unspendable then remove_outputs height is_coinbase rest view
    else
      let (spent, view) := view.spend_coin outpoint
      let matches_output := match spent with
        | some coin => coin.tx_out.value == output.value && coin.tx_out.script_pubkey == output.script_pubkey &&
            coin.height == height && coin.coinbase == is_coinbase
        | none => false
      let (clean, view) := remove_outputs height is_coinbase rest view
      (matches_output && clean, view)

/-- The restoring loop over inputs and their undo coins, in the order given. The
    result is `none` when it fails. -/
def restore_inputs : List (TxIn × Coin) → CoinsViewCache → Except Panic (Option Bool × CoinsViewCache)
  | [], view => .ok (some true, view)
  | (input, undo_coin) :: rest, view => do
    let (result, view) ← apply_tx_in_undo undo_coin view input.prevout
    if result = .Failed then .ok (none, view)
    else
      let (clean, view) ← restore_inputs rest view
      .ok (clean.map fun clean => decide (result = .Ok) && clean, view)

/-- Undo one transaction: the one at `tx_index`, whose record is the one before
    that index. -/
def disconnect_tx (undo : List TxUndo) (height : UInt32) (tx : Transaction) (tx_index : Nat)
    (view : CoinsViewCache) : Except Panic (Option Bool × CoinsViewCache) :=
  let (removed, view) := remove_outputs height tx.is_coinbase (outpoints tx) view
  if tx.is_coinbase then .ok (some removed, view)
  else if tx_index = 0 then .error (.overflow .usize)
  else
    match undo[tx_index - 1]? with
    | none => .error .index_out_of_bounds
    | some tx_undo =>
      if tx_undo.prev_coins.length ≠ tx.vin.length then .ok (none, view)
      else do
        let (restored, view) ← restore_inputs (tx.vin.zip tx_undo.prev_coins).reverse view
        .ok (restored.map fun clean => removed && clean, view)

/-- The transaction loop of `disconnect_block`, last transaction first. -/
def disconnect_txs (undo : List TxUndo) (height : UInt32) :
    List (Transaction × Nat) → CoinsViewCache → Except Panic (Option Bool × CoinsViewCache)
  | [], view => .ok (some true, view)
  | (tx, tx_index) :: rest, view => do
    let (result, view) ← disconnect_tx undo height tx tx_index view
    match result with
    | none => .ok (none, view)
    | some first =>
      let (clean, view) ← disconnect_txs undo height rest view
      .ok (clean.map fun clean => first && clean, view)

def disconnect_block (block : Block) (height : Int) (view : CoinsViewCache) (undo : BlockUndo) :
    Except Panic (DisconnectResult × CoinsViewCache) :=
  if undo.tx_undo.length ≠ block.vtx.length - 1 then .ok (.Failed, view)
  else do
    let (clean, view) ← disconnect_txs undo.tx_undo (as_u32 height) block.vtx.zipIdx.reverse view
    .ok (match clean with
      | none => .Failed
      | some true => .Ok
      | some false => .Unclean, view)

end qubitcoin.validation
