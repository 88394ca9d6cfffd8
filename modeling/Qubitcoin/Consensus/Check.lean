import Qubitcoin.Consensus.Transaction
import Qubitcoin.Consensus.ValidationState

/-! `qubitcoin-consensus/check.rs`: context-free transaction checks, proof of
    work, the subsidy and the signature-operation cost. -/

open qubitcoin primitives script transaction params validation_state

namespace qubitcoin.check

def MAX_BLOCK_WEIGHT : Nat := 4000000
def MAX_BLOCK_SIGOPS_COST : Nat := 80000
def COINBASE_MATURITY : Int := 100
def WITNESS_SCALE_FACTOR : Nat := 4

/-- The bytes that the size limit of `check_transaction` counts: everything but
    the witnesses. -/
def no_witness_buf (tx : Transaction) : List UInt8 :=
  encode_u32 tx.version ++
    write_compact_size tx.vin.length ++ tx.vin.flatMap TxIn.encode ++
    write_compact_size tx.vout.length ++ tx.vout.flatMap TxOut.encode ++
    encode_u32 tx.lock_time

/-- The output-value loop of `check_transaction`, from a running total. -/
def check_output_values (total_out : Amount) : List TxOut → Except (Failure TxValidationState) Unit
  | [] => .ok ()
  | txout :: rest => do
    require (decide (0 ≤ txout.value)) (tx_invalid .Consensus "bad-txns-vout-negative" "")
    require (money_range txout.value) (tx_invalid .Consensus "bad-txns-vout-toolarge" "")
    let total_out ← checked .Amount (total_out + txout.value)
    require (money_range total_out) (tx_invalid .Consensus "bad-txns-txouttotal-toolarge" "")
    check_output_values total_out rest

def check_transaction (tx : Transaction) : Except (Failure TxValidationState) Unit := do
  require (!tx.vin.isEmpty) (tx_invalid .Consensus "bad-txns-vin-empty" "")
  require (!tx.vout.isEmpty) (tx_invalid .Consensus "bad-txns-vout-empty" "")
  require (decide ((no_witness_buf tx).length * WITNESS_SCALE_FACTOR ≤ MAX_BLOCK_WEIGHT))
    (tx_invalid .Consensus "bad-txns-oversize" "")
  check_output_values 0 tx.vout
  -- A `HashSet` of the outpoints seen so far refuses a second occurrence.
  require (decide (tx.vin.map TxIn.prevout).Nodup) (tx_invalid .Consensus "bad-txns-inputs-duplicate" "")
  if tx.is_coinbase then
    let script_len := (tx.vin.head?.map fun input => input.script_sig.len).getD 0
    require (decide (2 ≤ script_len ∧ script_len ≤ 100)) (tx_invalid .Consensus "bad-cb-length" "")
  else
    require (tx.vin.all fun txin => !txin.prevout.is_null) (tx_invalid .Consensus "bad-txns-prevout-null" "")

/-- The block hash meets the target that `bits` claims, and the target is in
    range. -/
def check_proof_of_work (hash : Uint256) (bits : UInt32) (params : ConsensusParams) : Bool :=
  let (target, negative, overflow) := ArithUint256.set_compact bits
  !(negative || target == 0 || overflow) && decide (target ≤ uint256_to_arith params.pow_limit) &&
    decide (uint256_to_arith hash ≤ target)

/-- The mining reward at a height. A zero interval and a negative shift are
    panics of the division and of the shift. -/
def get_block_subsidy {S : Type} (height : Int) (params : ConsensusParams) : Except (Failure S) Amount :=
  if params.subsidy_halving_interval = 0 then .error (.panic .division_by_zero)
  else do
    let halvings ← checked .i32 (height.tdiv params.subsidy_halving_interval)
    if 64 ≤ halvings then .ok 0
    else if halvings < 0 then .error (.panic .negative_shift)
    else .ok (50 * COIN / 2 ^ halvings.toNat)

def get_legacy_sigop_count (tx : Transaction) : Nat :=
  (tx.vin.map fun input => input.script_sig.get_sig_op_count false).sum +
    (tx.vout.map fun output => output.script_pubkey.get_sig_op_count false).sum

/-- The input loop of `get_p2sh_sigop_count`; a scriptSig with an operation
    that is not a push makes the whole count zero. -/
def p2sh_sigops (get_script_pubkey : OutPoint → Option Script) : Nat → List TxIn → Nat
  | n_sig_ops, [] => n_sig_ops
  | n_sig_ops, input :: rest =>
    match get_script_pubkey input.prevout with
    | some prev_script =>
      if prev_script.is_p2sh then
        match input.script_sig.last_push (fun opcode => decide (opcode ≤ OP_16)) input.script_sig.len 0 [] with
        | some last_data =>
          p2sh_sigops get_script_pubkey (n_sig_ops + (Script.mk last_data).get_sig_op_count true) rest
        | none => 0
      else p2sh_sigops get_script_pubkey n_sig_ops rest
    | none => p2sh_sigops get_script_pubkey n_sig_ops rest

def get_p2sh_sigop_count (tx : Transaction) (get_script_pubkey : OutPoint → Option Script) : Nat :=
  if tx.is_coinbase then 0 else p2sh_sigops get_script_pubkey 0 tx.vin

def witness_sigops (version : Nat) (program : List UInt8) (witness : Witness) : Nat :=
  if version = 0 then
    if program.length = 20 then 1
    else if program.length = 32 then
      match witness.stack.getLast? with
      | some script => (Script.mk script).get_sig_op_count true
      | none => 0
    else 0
  else 0

def count_witness_sigops (script_sig script_pubkey : Script) (witness : Witness) (flags : UInt32) : Nat :=
  if flags &&& 0x800 = 0 then 0
  else
    match script_pubkey.is_witness_program with
    | some (version, program) => witness_sigops version program witness
    | none =>
      if flags &&& 0x1 ≠ 0 ∧ script_pubkey.is_p2sh = true then
        let last_data := (script_sig.last_push (fun _ => true) script_sig.len 0 []).getD []
        match (Script.mk last_data).is_witness_program with
        | some (version, program) => witness_sigops version program witness
        | none => 0
      else 0

def get_transaction_sigop_cost (tx : Transaction) (flags : UInt32)
    (get_prevout_script : OutPoint → Option Script) : Nat :=
  let legacy := get_legacy_sigop_count tx * WITNESS_SCALE_FACTOR
  if tx.is_coinbase then legacy
  else
    let p2sh := if flags &&& 0x1 ≠ 0 then
      get_p2sh_sigop_count tx get_prevout_script * WITNESS_SCALE_FACTOR else 0
    let witness := (tx.vin.map fun input =>
      match get_prevout_script input.prevout with
      | some prev_spk => count_witness_sigops input.script_sig prev_spk input.witness flags
      | none => 0).sum
    legacy + p2sh + witness

end qubitcoin.check

/-! What a transaction that passes `check_transaction` guarantees. -/

namespace qubitcoin.check

def value_out (outputs : List TxOut) : Int := (outputs.map TxOut.value).sum

theorem check_output_values_ok {outputs : List TxOut} :
    ∀ {total : Amount}, check_output_values total outputs = .ok () → money_range total = true →
      (∀ output ∈ outputs, money_range output.value = true) ∧
        money_range (total + value_out outputs) = true := by
  induction outputs with
  | nil =>
    intro total _ htotal
    simpa [value_out] using htotal
  | cons output rest ih =>
    intro total hcheck _
    unfold check_output_values at hcheck
    obtain ⟨_, _, hcheck⟩ := bind_eq_ok_iff.mp hcheck
    obtain ⟨_, hrange, hcheck⟩ := bind_eq_ok_iff.mp hcheck
    obtain ⟨sum, hsum, hcheck⟩ := bind_eq_ok_iff.mp hcheck
    obtain ⟨_, htotal, hcheck⟩ := bind_eq_ok_iff.mp hcheck
    obtain ⟨rfl, _⟩ := checked_eq_ok.mp hsum
    obtain ⟨hvalues, hrest⟩ := ih hcheck (require_eq_ok.mp htotal)
    refine ⟨?_, ?_⟩
    · intro other hmem
      rcases List.mem_cons.mp hmem with rfl | hmem
      · exact require_eq_ok.mp hrange
      · exact hvalues other hmem
    · rw [value_out, List.map_cons, List.sum_cons, ← add_assoc]
      exact hrest

/-- The facts that later validation relies on. -/
structure Checked (tx : Transaction) : Prop where
  vin_nonempty : tx.vin ≠ []
  vout_nonempty : tx.vout ≠ []
  vout_length : tx.vout.length < 2 ^ 32
  values : ∀ output ∈ tx.vout, money_range output.value = true
  total : money_range (value_out tx.vout) = true
  prevouts_nodup : (tx.vin.map TxIn.prevout).Nodup

theorem vout_length_le_no_witness_buf (tx : Transaction) : tx.vout.length ≤ (no_witness_buf tx).length := by
  have hencode : ∀ outputs : List TxOut, outputs.length ≤ (outputs.flatMap TxOut.encode).length := by
    intro outputs
    induction outputs with
    | nil => simp
    | cons output rest ih =>
      rw [List.flatMap_cons, List.length_append, List.length_cons]
      have hone : 1 ≤ output.encode.length := by
        simp [TxOut.encode, encode_i64, littleEndian.length_toBytes]
        omega
      omega
  have := hencode tx.vout
  unfold no_witness_buf
  simp only [List.length_append]
  omega

theorem check_transaction_ok {tx : Transaction} (hcheck : check_transaction tx = .ok ()) : Checked tx := by
  unfold check_transaction at hcheck
  obtain ⟨_, hvin, hcheck⟩ := bind_eq_ok_iff.mp hcheck
  obtain ⟨_, hvout, hcheck⟩ := bind_eq_ok_iff.mp hcheck
  obtain ⟨_, hsize, hcheck⟩ := bind_eq_ok_iff.mp hcheck
  obtain ⟨_, hvalues, hcheck⟩ := bind_eq_ok_iff.mp hcheck
  obtain ⟨_, hnodup, _⟩ := bind_eq_ok_iff.mp hcheck
  obtain ⟨hrange, htotal⟩ := check_output_values_ok hvalues (by decide)
  have hsize := of_decide_eq_true (require_eq_ok.mp hsize)
  refine ⟨?_, ?_, ?_, hrange, ?_, of_decide_eq_true (require_eq_ok.mp hnodup)⟩
  · simpa using require_eq_ok.mp hvin
  · simpa using require_eq_ok.mp hvout
  · have hlength := vout_length_le_no_witness_buf tx
    unfold WITNESS_SCALE_FACTOR MAX_BLOCK_WEIGHT at hsize
    omega
  · simpa using htotal

theorem value_out_from_ok {S : Type} {outputs : List TxOut} :
    ∀ {total : Amount}, money_range total = true → (∀ output ∈ outputs, money_range output.value = true) →
      money_range (total + value_out outputs) = true →
      (value_out_from total outputs : Except (Failure S) Amount) = .ok (total + value_out outputs) := by
  induction outputs with
  | nil =>
    intro total _ _ _
    simp [value_out_from, value_out]
  | cons output rest ih =>
    intro total htotal hvalues hsum
    have hhead := money_range_iff.mp (hvalues output (by simp))
    have hrest_values : ∀ other ∈ rest, money_range other.value = true :=
      fun other hmem => hvalues other (List.mem_cons_of_mem _ hmem)
    have hrest_nonneg : 0 ≤ value_out rest := by
      refine List.sum_nonneg ?_
      intro value hmem
      obtain ⟨other, hother, rfl⟩ := List.mem_map.mp hmem
      exact (money_range_iff.mp (hrest_values other hother)).1
    have heq : total + value_out (output :: rest) = total + output.value + value_out rest := by
      rw [value_out, List.map_cons, List.sum_cons, ← add_assoc]
      rfl
    rw [heq] at hsum ⊢
    have htotal := money_range_iff.mp htotal
    have hbound := money_range_iff.mp hsum
    have hfits : IntType.fits .Amount (total + output.value) := by
      constructor <;> norm_num <;> omega
    unfold value_out_from
    refine bind_eq_ok_iff.mpr ⟨_, checked_eq_ok.mpr ⟨rfl, hfits⟩, ?_⟩
    exact ih (money_range_iff.mpr (by omega)) hrest_values hsum

theorem Checked.get_value_out {S : Type} {tx : Transaction} (hchecked : Checked tx) :
    (tx.get_value_out : Except (Failure S) Amount) = .ok (value_out tx.vout) := by
  have hsum := @value_out_from_ok S tx.vout 0 (by decide) hchecked.values (by simpa using hchecked.total)
  simpa [Transaction.get_value_out] using hsum

end qubitcoin.check
