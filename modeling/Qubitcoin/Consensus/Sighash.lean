import Qubitcoin.Crypto.Sha256
import Qubitcoin.Script.Bounds

/-! `qubitcoin-consensus/sighash.rs`: what a signature signs, for the three kinds of
    outputs. -/

open qubitcoin primitives script transaction

namespace qubitcoin.sighash

def SIGHASH_ALL : UInt32 := 1
def SIGHASH_NONE : UInt32 := 2
def SIGHASH_SINGLE : UInt32 := 3
def SIGHASH_ANYONECANPAY : UInt32 := 0x80
def SIGHASH_OUTPUT_MASK : UInt32 := 0x1f

def OP_CODESEPARATOR : UInt8 := 0xab

/-- The hashes of the crypto crates: `hash256`, `sha256_hash` and `hash160`. -/
structure Hashes where
  hash256 : List UInt8 → Uint256
  sha256_hash : List UInt8 → List UInt8
  hash160 : List UInt8 → List UInt8

def Hashes.tagged_hash (hashes : Hashes) (tag message : List UInt8) : List UInt8 :=
  let tag_hash := hashes.sha256_hash tag
  hashes.sha256_hash (tag_hash ++ tag_hash ++ message)

/-- The hashes that all inputs of a transaction share. -/
structure PrecomputedTransactionData where
  hash_prevouts : Uint256
  hash_sequence : Uint256
  hash_outputs : Uint256
  sha_prevouts : List UInt8
  sha_amounts : List UInt8
  sha_script_pubkeys : List UInt8
  sha_sequences : List UInt8
  sha_outputs : List UInt8
  spent_outputs : List TxOut

def PrecomputedTransactionData.new (hashes : Hashes) (tx : Transaction) (spent_outputs : List TxOut) :
    PrecomputedTransactionData :=
  let prevouts_buf := tx.vin.flatMap fun input => input.prevout.encode
  let sequence_buf := tx.vin.flatMap fun input => encode_u32 input.sequence
  let outputs_buf := tx.vout.flatMap TxOut.encode
  { hash_prevouts := hashes.hash256 prevouts_buf
    hash_sequence := hashes.hash256 sequence_buf
    hash_outputs := hashes.hash256 outputs_buf
    sha_prevouts := hashes.sha256_hash prevouts_buf
    sha_amounts := hashes.sha256_hash (spent_outputs.flatMap fun output => encode_i64 output.value)
    sha_script_pubkeys := hashes.sha256_hash (spent_outputs.flatMap fun output => encode_script output.script_pubkey)
    sha_sequences := hashes.sha256_hash sequence_buf
    sha_outputs := hashes.sha256_hash outputs_buf
    spent_outputs }

/-- The loop of `remove_codeseparators`. Every operation is at least one byte long. -/
def remove_codeseparators_loop (script : Script) : Nat → Nat → List UInt8
  | 0, _ => []
  | fuel + 1, pos =>
    match script.get_op pos with
    | none => []
    | some (opcode, _, new_pos) =>
      (if opcode = OP_CODESEPARATOR then [] else (script.data.drop pos).take (new_pos - pos)) ++
        remove_codeseparators_loop script fuel new_pos

def remove_codeseparators (script : Script) : Script := ⟨remove_codeseparators_loop script script.len 0⟩

/-- An input of the transaction that is hashed for the legacy signature of input
    `input_index`. -/
def legacy_input (script_code : Script) (input_index : Nat) (base_type : UInt32) (i : Nat) (input : TxIn) : List UInt8 :=
  input.prevout.encode ++ encode_script (if i = input_index then script_code else .new) ++
    encode_u32 (if i ≠ input_index ∧ (base_type = SIGHASH_NONE ∨ base_type = SIGHASH_SINGLE) then 0 else input.sequence)

/-- The outputs of the transaction that is hashed. -/
def legacy_outputs (tx : Transaction) (input_index : Nat) (base_type : UInt32) : List UInt8 :=
  if base_type = SIGHASH_NONE then write_compact_size 0
  else if base_type = SIGHASH_SINGLE then
    write_compact_size (input_index + 1) ++ (List.replicate input_index TxOut.null).flatMap TxOut.encode ++
      ((tx.vout.drop input_index).take 1).flatMap TxOut.encode
  else write_compact_size tx.vout.length ++ tx.vout.flatMap TxOut.encode

def signature_hash (hashes : Hashes) (script_code : Script) (tx : Transaction) (input_index : Nat) (hash_type : UInt32) :
    Uint256 :=
  if tx.vin.length ≤ input_index then 1
  else
    let script_code := remove_codeseparators script_code
    let base_type := hash_type &&& SIGHASH_OUTPUT_MASK
    if base_type = SIGHASH_SINGLE ∧ tx.vout.length ≤ input_index then 1
    else
      let anyone_can_pay := hash_type &&& SIGHASH_ANYONECANPAY ≠ 0
      let inputs := tx.vin.zipIdx.filter fun (_, i) => !anyone_can_pay || i == input_index
      hashes.hash256 (encode_u32 tx.version ++
        write_compact_size (if anyone_can_pay then 1 else tx.vin.length) ++
        inputs.flatMap (fun (input, i) => legacy_input script_code input_index base_type i input) ++
        legacy_outputs tx input_index base_type ++ encode_u32 tx.lock_time ++ encode_u32 hash_type)

/-- The hash for a segwit v0 signature; an input index out of range aborts. -/
def witness_v0_signature_hash (hashes : Hashes) (script_code : Script) (tx : Transaction) (input_index : Nat)
    (hash_type : UInt32) (amount : Int) (precomputed : PrecomputedTransactionData) : Except Panic Uint256 :=
  let base_type := hash_type &&& SIGHASH_OUTPUT_MASK
  let anyone_can_pay := hash_type &&& SIGHASH_ANYONECANPAY ≠ 0
  let all_outputs := base_type ≠ SIGHASH_SINGLE ∧ base_type ≠ SIGHASH_NONE
  match tx.vin[input_index]? with
  | none => .error .index_out_of_bounds
  | some input =>
    let zeros : List UInt8 := List.replicate 32 0
    .ok (hashes.hash256 (encode_u32 tx.version ++
      (if anyone_can_pay then zeros else precomputed.hash_prevouts.data) ++
      (if ¬ anyone_can_pay ∧ all_outputs then precomputed.hash_sequence.data else zeros) ++
      input.prevout.encode ++ encode_script script_code ++ encode_i64 amount ++ encode_u32 input.sequence ++
      (if all_outputs then precomputed.hash_outputs.data
        else match tx.vout[input_index]? with
          | some output => if base_type = SIGHASH_SINGLE then (hashes.hash256 output.encode).data else zeros
          | none => zeros) ++
      encode_u32 tx.lock_time ++ encode_u32 hash_type))

/-- The bytes of `TapSighash`. -/
def TAP_SIGHASH : List UInt8 := [0x54, 0x61, 0x70, 0x53, 0x69, 0x67, 0x68, 0x61, 0x73, 0x68]

def taproot_input (tx : Transaction) (input_index : Nat) (anyone_can_pay : Bool)
    (precomputed : PrecomputedTransactionData) : Except Panic (List UInt8) :=
  if anyone_can_pay then
    match tx.vin[input_index]? with
    | none => .error .index_out_of_bounds
    | some input =>
      let (value, script_pubkey) := match precomputed.spent_outputs[input_index]? with
        | some output => (output.value, output.script_pubkey)
        | none => (0, .new)
      .ok (input.prevout.encode ++ encode_i64 value ++ encode_script script_pubkey ++ encode_u32 input.sequence)
  else .ok (encode_u32 (UInt32.ofNat input_index))

/-- The hash for a taproot signature; `none` for an unknown hash type and for a single
    output that is not there. -/
def taproot_signature_hash (hashes : Hashes) (tx : Transaction) (input_index : Nat) (hash_type : UInt32)
    (precomputed : PrecomputedTransactionData) (ext_flag : UInt8) (tapleaf_hash : Option (List UInt8))
    (codesep_pos : Option UInt32) (annex_hash : Option (List UInt8)) : Except Panic (Option Uint256) :=
  if ¬ (hash_type ≤ 3 ∨ 0x81 ≤ hash_type ∧ hash_type ≤ 0x83) then .ok none
  else do
    let base_type := if hash_type = 0 then SIGHASH_ALL else hash_type &&& SIGHASH_OUTPUT_MASK
    let anyone_can_pay := decide (hash_type &&& SIGHASH_ANYONECANPAY ≠ 0)
    let input ← taproot_input tx input_index anyone_can_pay precomputed
    let shared := if anyone_can_pay then [] else precomputed.sha_prevouts ++ precomputed.sha_amounts ++
      precomputed.sha_script_pubkeys ++ precomputed.sha_sequences
    let outputs := if base_type ≠ SIGHASH_NONE ∧ base_type ≠ SIGHASH_SINGLE then precomputed.sha_outputs else []
    let spend_type := ext_flag * 2 + (if annex_hash.isSome then 1 else 0)
    let front := [0, hash_type.toUInt8] ++ encode_u32 tx.version ++ encode_u32 tx.lock_time ++ shared ++ outputs ++
      [spend_type] ++ input ++ annex_hash.getD []
    let tapscript := if ext_flag = 1 then
      tapleaf_hash.getD [] ++ [0] ++ encode_u32 (codesep_pos.getD 0xffffffff) else []
    let finish (single : List UInt8) : Option Uint256 :=
      some (.from_bytes (hashes.tagged_hash TAP_SIGHASH (front ++ single ++ tapscript)))
    if base_type = SIGHASH_SINGLE then
      match tx.vout[input_index]? with
      | none => pure none
      | some output => pure (finish (hashes.sha256_hash output.encode))
    else pure (finish [])

end qubitcoin.sighash

/-! The legacy signature hash signs a modified copy of the transaction, although the
    code never builds that copy. -/

namespace qubitcoin.sighash

/-- The script from a position on is a sequence of operations up to its end: opcodes, each
    with the bytes that it takes in the script. -/
inductive Parses (script : Script) : Nat → List (UInt8 × List UInt8) → Prop
  | done : Parses script script.len []
  | op {pos new_pos : Nat} {opcode : UInt8} {data : List UInt8} {rest : List (UInt8 × List UInt8)}
    (hop : script.get_op pos = some (opcode, data, new_pos)) (hrest : Parses script new_pos rest) :
    Parses script pos ((opcode, (script.data.drop pos).take (new_pos - pos)) :: rest)

/-- The bytes of the operations that are no code separators. -/
def without_codeseparators (ops : List (UInt8 × List UInt8)) : Script :=
  ⟨(ops.filter fun op => op.1 ≠ OP_CODESEPARATOR).flatMap Prod.snd⟩

/-- The input that is signed carries the script code, any other an empty script, and no
    sequence number where its owner may still choose one. -/
def modified_input (script_code : Script) (input_index : Nat) (base_type : UInt32) (i : Nat) (input : TxIn) : TxIn :=
  if i = input_index then { input with script_sig := script_code }
  else { input with
    script_sig := .new
    sequence := if base_type = SIGHASH_NONE ∨ base_type = SIGHASH_SINGLE then 0 else input.sequence }

/-- The outputs that are signed: all, none, or the one at the index of the input after blank
    ones. -/
def modified_outputs (vout : List TxOut) (input_index : Nat) (base_type : UInt32) : List TxOut :=
  if base_type = SIGHASH_NONE then []
  else if base_type = SIGHASH_SINGLE then
    (vout.take (input_index + 1)).mapIdx fun i output => if i = input_index then output else .null
  else vout

/-- The copy of the transaction that a legacy signature of an input signs. -/
def modified_copy (script_code : Script) (tx : Transaction) (input_index : Nat) (hash_type : UInt32) : Transaction :=
  let base_type := hash_type &&& SIGHASH_OUTPUT_MASK
  let vin := tx.vin.mapIdx (modified_input script_code input_index base_type)
  { tx with
    vin := if hash_type &&& SIGHASH_ANYONECANPAY ≠ 0 then vin[input_index]?.toList else vin
    vout := modified_outputs tx.vout input_index base_type }

theorem Parses.length_le {script : Script} {pos : Nat} {ops : List (UInt8 × List UInt8)} (hparses : Parses script pos ops) :
    pos ≤ script.len ∧ ops.length ≤ script.len - pos := by
  induction hparses with
  | done => exact ⟨Nat.le_refl _, Nat.zero_le _⟩
  | op hop _ ih =>
    have hbounds := interpreter.vm.get_op_bounds hop
    rw [List.length_cons]
    omega

theorem remove_codeseparators_loop_eq {script : Script} {pos : Nat} {ops : List (UInt8 × List UInt8)}
    (hparses : Parses script pos ops) :
    ∀ {fuel : Nat}, ops.length ≤ fuel →
      remove_codeseparators_loop script fuel pos = (without_codeseparators ops).data := by
  induction hparses with
  | done =>
    intro fuel _
    cases fuel with
    | zero => rfl
    | succ fuel =>
      have hend : script.get_op script.len = none := by
        unfold Script.get_op Script.len
        rw [List.drop_length]
      rw [remove_codeseparators_loop, hend]
      rfl
  | op hop _ ih =>
    intro fuel hfuel
    cases fuel with
    | zero => cases hfuel
    | succ fuel =>
      rw [remove_codeseparators_loop, hop]
      dsimp only
      rw [ih (Nat.le_of_succ_le_succ hfuel)]
      unfold without_codeseparators
      split
      · next hseparator => rw [List.filter_cons_of_neg (by simpa using hseparator), List.nil_append]
      · next hkept => rw [List.filter_cons_of_pos (by simpa using hkept), List.flatMap_cons]

theorem remove_codeseparators_eq {script : Script} {ops : List (UInt8 × List UInt8)} (hparses : Parses script 0 ops) :
    remove_codeseparators script = without_codeseparators ops := by
  unfold remove_codeseparators
  rw [remove_codeseparators_loop_eq hparses (by have := hparses.length_le; omega)]

theorem legacy_input_eq (script_code : Script) (input_index : Nat) (base_type : UInt32) (i : Nat) (input : TxIn) :
    legacy_input script_code input_index base_type i input =
      (modified_input script_code input_index base_type i input).encode := by
  unfold legacy_input modified_input TxIn.encode
  by_cases hsame : i = input_index
  · rw [if_pos hsame, if_pos hsame, if_neg (fun h => h.1 hsame)]
  · rw [if_neg hsame, if_neg hsame]
    by_cases hdropped : base_type = SIGHASH_NONE ∨ base_type = SIGHASH_SINGLE
    · rw [if_pos ⟨hsame, hdropped⟩, if_pos hdropped]
    · rw [if_neg fun h => hdropped h.2, if_neg hdropped]

theorem filter_zipIdx_eq {A : Type} {l : List A} {a : A} :
    ∀ {start index : Nat}, l[index]? = some a →
      ((l.zipIdx start).filter fun p => p.2 == start + index) = [(a, start + index)] := by
  induction l with
  | nil => exact fun hat => nomatch hat
  | cons head rest ih =>
    intro start index hat
    rw [List.zipIdx_cons]
    cases index with
    | zero =>
      cases hat
      have hrest : ((rest.zipIdx (start + 1)).filter fun p => p.2 == start + 0) = [] := by
        refine List.filter_eq_nil_iff.mpr fun p hmem => ?_
        have hle := List.le_snd_of_mem_zipIdx hmem
        rw [beq_iff_eq]
        omega
      have hself : ((a, start).2 == start + 0) = true := beq_self_eq_true start
      rw [List.filter_cons, if_pos hself, hrest]
      rfl
    | succ index =>
      have hother : ¬ (start == start + (index + 1)) = true := by
        rw [beq_iff_eq]
        omega
      have hfound := @ih (start + 1) index hat
      rw [List.filter_cons, if_neg hother, show start + (index + 1) = start + 1 + index by omega, hfound]

theorem inputs_flatMap_eq {tx : Transaction} {input_index : Nat} (hindex : input_index < tx.vin.length)
    (script_code : Script) (hash_type : UInt32) :
    ((tx.vin.zipIdx.filter fun (_, i) =>
        !decide (hash_type &&& SIGHASH_ANYONECANPAY ≠ 0) || i == input_index).flatMap
      fun (input, i) => legacy_input script_code input_index (hash_type &&& SIGHASH_OUTPUT_MASK) i input) =
      (modified_copy script_code tx input_index hash_type).vin.flatMap TxIn.encode := by
  have hat := List.getElem?_eq_getElem hindex
  unfold modified_copy
  dsimp only
  by_cases hanyone : hash_type &&& SIGHASH_ANYONECANPAY ≠ 0
  · have hone := @filter_zipIdx_eq _ tx.vin _ 0 input_index hat
    rw [Nat.zero_add] at hone
    rw [decide_eq_true hanyone, if_pos hanyone, List.getElem?_mapIdx, hat]
    simp only [Bool.not_true, Bool.false_or]
    rw [hone]
    simp [legacy_input_eq]
  · rw [decide_eq_false hanyone, if_neg hanyone, List.mapIdx_eq_zipIdx_map, List.flatMap_map]
    simp only [Bool.not_false, Bool.true_or, List.filter_true]
    exact congrArg (fun f => tx.vin.zipIdx.flatMap f) (funext fun p => legacy_input_eq _ _ _ _ _)

theorem length_modified_vin {tx : Transaction} {input_index : Nat} (hindex : input_index < tx.vin.length)
    (script_code : Script) (hash_type : UInt32) :
    (modified_copy script_code tx input_index hash_type).vin.length =
      if hash_type &&& SIGHASH_ANYONECANPAY ≠ 0 then 1 else tx.vin.length := by
  unfold modified_copy
  dsimp only
  by_cases hanyone : hash_type &&& SIGHASH_ANYONECANPAY ≠ 0
  · rw [if_pos hanyone, if_pos hanyone, List.getElem?_mapIdx, List.getElem?_eq_getElem hindex]
    rfl
  · rw [if_neg hanyone, if_neg hanyone, List.length_mapIdx]

theorem modified_outputs_single {vout : List TxOut} {input_index : Nat} (hindex : input_index < vout.length) :
    modified_outputs vout input_index SIGHASH_SINGLE =
      List.replicate input_index .null ++ (vout.drop input_index).take 1 := by
  unfold modified_outputs
  rw [if_neg (by decide), if_pos rfl]
  apply List.ext_getElem?
  intro i
  rw [List.getElem?_mapIdx, List.getElem?_take]
  obtain hless | rfl | hmore := Nat.lt_trichotomy i input_index
  · rw [if_pos (by omega), List.getElem?_eq_getElem (by omega), List.getElem?_append_left (by simpa using hless),
      List.getElem?_replicate, if_pos hless, Option.map_some, if_neg (by omega)]
  · rw [if_pos (by omega), List.getElem?_append_right (by simp), List.length_replicate, Nat.sub_self,
      List.getElem?_take, if_pos Nat.one_pos, List.getElem?_drop, Nat.add_zero, List.getElem?_eq_getElem hindex,
      Option.map_some, if_pos rfl]
  · rw [if_neg (by omega), List.getElem?_append_right (by simp; omega), List.length_replicate, List.getElem?_take,
      if_neg (by omega)]
    rfl

theorem legacy_outputs_eq {tx : Transaction} {input_index : Nat} {base_type : UInt32}
    (hsingle : base_type = SIGHASH_SINGLE → input_index < tx.vout.length) :
    legacy_outputs tx input_index base_type =
      write_compact_size (modified_outputs tx.vout input_index base_type).length ++
        (modified_outputs tx.vout input_index base_type).flatMap TxOut.encode := by
  by_cases hnone : base_type = SIGHASH_NONE
  · unfold legacy_outputs modified_outputs
    rw [if_pos hnone, if_pos hnone]
    rfl
  by_cases hone : base_type = SIGHASH_SINGLE
  · subst hone
    have hindex := hsingle rfl
    have hlength : (List.replicate input_index TxOut.null ++ (tx.vout.drop input_index).take 1).length = input_index + 1 := by
      rw [List.length_append, List.length_replicate, List.length_take, List.length_drop]
      omega
    rw [modified_outputs_single hindex, hlength, List.flatMap_append, ← List.append_assoc]
    rfl
  · unfold legacy_outputs modified_outputs
    rw [if_neg hnone, if_neg hone, if_neg hnone, if_neg hone]

/-- The legacy signature hash is that of the modified copy, whose serialization without
    witnesses is followed by the hash type, and one where a single output is asked for
    that is not there. -/
theorem signature_hash_eq_modified_copy (hashes : Hashes) {script_code : Script} {ops : List (UInt8 × List UInt8)}
    (hparses : Parses script_code 0 ops) {tx : Transaction} {input_index : Nat} (hindex : input_index < tx.vin.length)
    (hash_type : UInt32) :
    signature_hash hashes script_code tx input_index hash_type =
      if hash_type &&& SIGHASH_OUTPUT_MASK = SIGHASH_SINGLE ∧ tx.vout.length ≤ input_index then 1
      else hashes.hash256
        (serialize_transaction (modified_copy (without_codeseparators ops) tx input_index hash_type) false ++
          encode_u32 hash_type) := by
  unfold signature_hash
  rw [if_neg (Nat.not_le_of_lt hindex), remove_codeseparators_eq hparses]
  dsimp only
  by_cases hmissing : hash_type &&& SIGHASH_OUTPUT_MASK = SIGHASH_SINGLE ∧ tx.vout.length ≤ input_index
  · rw [if_pos hmissing, if_pos hmissing]
  · have hsingle : hash_type &&& SIGHASH_OUTPUT_MASK = SIGHASH_SINGLE → input_index < tx.vout.length :=
      fun hbase => Nat.lt_of_not_le fun hle => hmissing ⟨hbase, hle⟩
    rw [if_neg hmissing, if_neg hmissing, inputs_flatMap_eq hindex, legacy_outputs_eq hsingle]
    unfold serialize_transaction
    rw [length_modified_vin hindex]
    simp only [Bool.false_and, Bool.false_eq_true, if_false, List.append_nil, List.append_assoc]
    rfl

/-- Hashes by SHA-256; a legacy signature needs no other. -/
def sha256_hashes : Hashes where
  hash256 := crypto.sha256d
  sha256_hash := crypto.sha256
  hash160 bytes := (crypto.sha256 bytes).take 20

def separated_script : Script := ⟨[0xab, 0x51]⟩

theorem separated_script_parses : Parses separated_script 0 [(0xab, [0xab]), (0x51, [0x51])] := by
  have hseparator : separated_script.get_op 0 = some (0xab, [], 1) := rfl
  have hconstant : separated_script.get_op 1 = some (0x51, [], 2) := rfl
  exact .op hseparator (.op hconstant .done)

/-- A payment of one input to one output. -/
def one_payment : Transaction := .new crypto.sha256d 2 [⟨⟨7, 0⟩, .new, SEQUENCE_FINAL, .new⟩] [⟨90000, ⟨[0x51]⟩⟩] 0

theorem signature_hash_one_payment :
    signature_hash sha256_hashes separated_script one_payment 0 SIGHASH_ALL =
      crypto.sha256d (serialize_transaction (modified_copy ⟨[0x51]⟩ one_payment 0 SIGHASH_ALL) false ++ [1, 0, 0, 0]) := by
  have hhash := signature_hash_eq_modified_copy sha256_hashes separated_script_parses
    (show 0 < one_payment.vin.length by decide) SIGHASH_ALL
  rw [if_neg (by decide)] at hhash
  exact hhash

end qubitcoin.sighash
