import Qubitcoin.Serialize
import Qubitcoin.Crypto.Sha256

/-! `qubitcoin-consensus/transaction.rs` and `block.rs`: decoding of transactions and
    blocks. The wire format of transactions is a bijection between sendable transactions and
    the byte strings that are accepted. -/

open qubitcoin primitives script serialize codec

namespace qubitcoin.transaction

def OutPoint.decode : Decoder OutPoint := do
  let hash ← decode_uint256
  let n ← decode_u32
  pure ⟨hash, n⟩

def decode_script : Decoder Script := do
  let data ← decode_bytes
  pure ⟨data⟩

def TxIn.decode : Decoder TxIn := do
  let prevout ← OutPoint.decode
  let script_sig ← decode_script
  let sequence ← decode_u32
  pure { prevout, script_sig, sequence, witness := .new }

def TxOut.decode : Decoder TxOut := do
  let value ← decode_i64
  let script_pubkey ← decode_script
  pure ⟨value, script_pubkey⟩

def Witness.decode : Decoder Witness := do
  let stack ← decode_vec decode_bytes
  pure ⟨stack⟩

/-- Read the witness of each input in turn. -/
def decode_witnesses : List TxIn → Decoder (List TxIn)
  | [] => pure []
  | input :: rest => do
    let witness ← Witness.decode
    let rest ← decode_witnesses rest
    pure ({ input with witness } :: rest)

/-- Read the inputs and the outputs, and the flags that are left. An empty list of
    inputs is the marker of the extended format where that is allowed. -/
def decode_inputs_outputs (allow_witness : Bool) : Decoder (UInt8 × List TxIn × List TxOut) := do
  let vin ← decode_vec TxIn.decode
  if vin.isEmpty && allow_witness then do
    let flags ← decode_u8
    if flags ≠ 0 then do
      let vin ← decode_vec TxIn.decode
      let vout ← decode_vec TxOut.decode
      pure (flags, vin, vout)
    else pure (flags, vin, [])
  else do
    let vout ← decode_vec TxOut.decode
    pure (0, vin, vout)

/-- Read the witness section that the flags announce, and clear its flag. -/
def decode_witness_section (allow_witness : Bool) (flags : UInt8) (vin : List TxIn) : Decoder (UInt8 × List TxIn) :=
  if flags &&& 1 ≠ 0 ∧ allow_witness = true then do
    let vin ← decode_witnesses vin
    guard_or (vin.any fun input => !input.witness.is_null) (.InvalidEncoding "Superfluous witness record")
    pure (flags ^^^ 1, vin)
  else pure (flags, vin)

def deserialize_transaction (hash256 : List UInt8 → Uint256) (allow_witness : Bool) : Decoder Transaction := do
  let version ← decode_u32
  let (flags, vin, vout) ← decode_inputs_outputs allow_witness
  let (flags, vin) ← decode_witness_section allow_witness flags vin
  guard_or (flags == 0) (.InvalidEncoding "Unknown transaction optional data")
  let lock_time ← decode_u32
  pure (.new hash256 version vin vout lock_time)

theorem OutPoint.exact_decode : Exact OutPoint.decode OutPoint.encode fun _ => True where
  run_eq_ok {input outpoint rest} := by
    unfold OutPoint.decode OutPoint.encode
    simp only [run_bind_eq_ok, run_pure_eq_ok, exact_decode_uint256.run_eq_ok, exact_decode_u32.run_eq_ok, true_and]
    constructor
    · rintro ⟨hash, _, rfl, n, _, rfl, rfl, rfl⟩
      simp
    · rintro rfl
      exact ⟨outpoint.hash, _, List.append_assoc .., outpoint.n, rest, rfl, rfl, rfl⟩

theorem exact_decode_script :
    Exact decode_script encode_script fun script => script.data.length ≤ MAX_SIZE := by
  refine exact_decode_bytes.map ?_ ?_
  · exact fun hle => ⟨rfl, hle⟩
  · exact fun hle => ⟨rfl, hle⟩

/-- The part of an input that is not its witness. -/
def TxIn.without_witness (self : TxIn) : TxIn := { self with witness := .new }

theorem TxIn.exact_decode : Exact TxIn.decode TxIn.encode fun input =>
    input.script_sig.data.length ≤ MAX_SIZE ∧ input.witness = .new where
  run_eq_ok {bytes input rest} := by
    unfold TxIn.decode TxIn.encode
    simp only [run_bind_eq_ok, run_pure_eq_ok, OutPoint.exact_decode.run_eq_ok, exact_decode_u32.run_eq_ok,
      exact_decode_script.run_eq_ok, true_and]
    constructor
    · rintro ⟨prevout, _, rfl, script_sig, _, ⟨hle, rfl⟩, sequence, _, rfl, rfl, rfl⟩
      exact ⟨⟨hle, rfl⟩, by simp⟩
    · rintro ⟨⟨hle, hwitness⟩, rfl⟩
      obtain ⟨prevout, script_sig, sequence, witness⟩ := input
      cases hwitness
      exact ⟨prevout, encode_script script_sig ++ (encode_u32 sequence ++ rest), by simp, script_sig,
        encode_u32 sequence ++ rest, ⟨hle, rfl⟩, sequence, rest, rfl, rfl, rfl⟩

theorem TxOut.exact_decode : Exact TxOut.decode TxOut.encode fun output =>
    IntType.i64.fits output.value ∧ output.script_pubkey.data.length ≤ MAX_SIZE where
  run_eq_ok {input output rest} := by
    unfold TxOut.decode TxOut.encode
    simp only [run_bind_eq_ok, run_pure_eq_ok, exact_decode_i64.run_eq_ok, exact_decode_script.run_eq_ok]
    constructor
    · rintro ⟨value, _, ⟨hfits, rfl⟩, script_pubkey, _, ⟨hle, rfl⟩, rfl, rfl⟩
      exact ⟨⟨hfits, hle⟩, by simp⟩
    · rintro ⟨⟨hfits, hle⟩, rfl⟩
      exact ⟨output.value, encode_script output.script_pubkey ++ rest, ⟨hfits, by simp⟩, output.script_pubkey, rest,
        ⟨hle, rfl⟩, rfl, rfl⟩

/-- A witness within the limits of its decoder. -/
def Witness.Sized (self : Witness) : Prop :=
  self.stack.length ≤ MAX_SIZE ∧ ∀ item ∈ self.stack, item.length ≤ MAX_SIZE

instance (witness : Witness) : Decidable witness.Sized := inferInstanceAs (Decidable (_ ∧ _))

theorem Witness.exact_decode : Exact Witness.decode Witness.encode Witness.Sized := by
  refine (exact_decode_vec exact_decode_bytes).map ?_ ?_
  · exact fun hsized => ⟨rfl, hsized⟩
  · exact fun hsized => ⟨rfl, hsized⟩

theorem decode_witnesses_eq_ok {vin : List TxIn} : ∀ {input rest : List UInt8} {signed : List TxIn},
    (decode_witnesses vin).run input = .ok (signed, rest) ↔
      signed.map TxIn.without_witness = vin.map TxIn.without_witness ∧ (∀ input ∈ signed, input.witness.Sized) ∧
        input = (signed.flatMap fun input => input.witness.encode) ++ rest := by
  induction vin with
  | nil =>
    intro input rest signed
    unfold decode_witnesses
    rw [run_pure_eq_ok]
    constructor
    · rintro ⟨rfl, rfl⟩
      simp
    · rintro ⟨hsame, _, rfl⟩
      have hnil : signed = [] := by simpa using hsame
      subst hnil
      simp
  | cons first vin ih =>
    intro input rest signed
    unfold decode_witnesses
    simp only [run_bind_eq_ok, run_pure_eq_ok, Witness.exact_decode.run_eq_ok, ih]
    constructor
    · rintro ⟨witness, _, ⟨hsized, rfl⟩, tail, _, ⟨hsame, hrest, rfl⟩, rfl, rfl⟩
      refine ⟨?_, ?_, by simp⟩
      · rw [List.map_cons, List.map_cons, hsame]
        rfl
      · intro input hmem
        rcases List.mem_cons.mp hmem with rfl | hmem
        · exact hsized
        · exact hrest input hmem
    · rintro ⟨hsame, hsized, rfl⟩
      cases signed with
      | nil => simp at hsame
      | cons head tail =>
        rw [List.map_cons, List.map_cons, List.cons.injEq] at hsame
        refine ⟨head.witness, (tail.flatMap fun input => input.witness.encode) ++ rest,
          ⟨hsized head (by simp), by simp⟩, tail, rest, ⟨hsame.2, fun input hmem => hsized input (by simp [hmem]), rfl⟩,
          ?_, rfl⟩
        have hhead : { first.without_witness with witness := head.witness } = head := by
          rw [← hsame.1]
          rfl
        exact congrArg (· :: tail) hhead

/-- The limits of the decoder on the lists and the scripts of a transaction, whose
    amounts are `i64` values. -/
structure Sized (vin : List TxIn) (vout : List TxOut) : Prop where
  vin_length : vin.length ≤ MAX_SIZE
  inputs : ∀ input ∈ vin, input.script_sig.data.length ≤ MAX_SIZE ∧ input.witness.Sized
  vout_length : vout.length ≤ MAX_SIZE
  outputs : ∀ output ∈ vout, IntType.i64.fits output.value ∧ output.script_pubkey.data.length ≤ MAX_SIZE

theorem has_witness_eq_false {vin : List TxIn} (hnew : ∀ input ∈ vin, input.witness = .new) :
    (vin.any fun input => !input.witness.is_null) = false := by
  rw [List.any_eq_false]
  intro input hmem
  rw [hnew input hmem]
  decide

theorem witness_eq_new {vin : List TxIn} (hnone : (vin.any fun input => !input.witness.is_null) = false) :
    ∀ input ∈ vin, input.witness = .new := by
  intro input hmem
  rw [List.any_eq_false] at hnone
  have hnull : input.witness.stack = [] := by simpa [Witness.is_null] using hnone input hmem
  obtain ⟨prevout, script_sig, sequence, stack⟩ := input
  exact congrArg Witness.mk hnull

theorem flatMap_encode_without_witness {vin signed : List TxIn}
    (hsame : signed.map TxIn.without_witness = vin.map TxIn.without_witness) :
    signed.flatMap TxIn.encode = vin.flatMap TxIn.encode := by
  have hencode : ∀ list : List TxIn, list.flatMap TxIn.encode = (list.map TxIn.without_witness).flatMap TxIn.encode := by
    intro list
    rw [List.flatMap_map]
    rfl
  rw [hencode, hsame, ← hencode]

theorem map_without_witness {vin : List TxIn} (hnew : ∀ input ∈ vin, input.witness = .new) :
    vin.map TxIn.without_witness = vin := by
  rw [List.map_congr_left (g := id), List.map_id]
  intro input hmem
  obtain ⟨prevout, script_sig, sequence, witness⟩ := input
  exact congrArg (TxIn.mk prevout script_sig sequence) (hnew _ hmem).symm

theorem serialize_transaction_eq (tx : Transaction) : serialize_transaction tx true =
    encode_u32 tx.version ++ ((if tx.has_witness then [0, 1] else []) ++ (encode_vec TxIn.encode tx.vin ++
      (encode_vec TxOut.encode tx.vout ++
        ((if tx.has_witness then tx.vin.flatMap fun input => input.witness.encode else []) ++
          encode_u32 tx.lock_time)))) := by
  have hmarker : write_compact_size 0 ++ [1] = [0, 1] := by decide
  unfold serialize_transaction encode_vec
  simp [hmarker]

theorem decode_inputs_outputs_eq_ok {input rest : List UInt8} {flags : UInt8} {vin : List TxIn} {vout : List TxOut} :
    (decode_inputs_outputs true).run input = .ok ((flags, vin, vout), rest) ↔
      (∀ input ∈ vin, input.witness = .new) ∧ Sized vin vout ∧
      ((flags = 0 ∧ vin ≠ [] ∧ input = encode_vec TxIn.encode vin ++ (encode_vec TxOut.encode vout ++ rest)) ∨
        (flags = 0 ∧ vin = [] ∧ vout = [] ∧ input = [0, 0] ++ rest) ∨
        (flags ≠ 0 ∧ input = [0, flags] ++ (encode_vec TxIn.encode vin ++ (encode_vec TxOut.encode vout ++ rest)))) := by
  have hvin := exact_decode_vec TxIn.exact_decode
  have hvout := exact_decode_vec TxOut.exact_decode
  have hempty : encode_vec TxIn.encode [] = [0] := by decide
  have hsized : ∀ {vin : List TxIn} {vout : List TxOut},
      (vin.length ≤ MAX_SIZE ∧ ∀ input ∈ vin, input.script_sig.data.length ≤ MAX_SIZE ∧ input.witness = .new) →
      (vout.length ≤ MAX_SIZE ∧ ∀ output ∈ vout, IntType.i64.fits output.value ∧
        output.script_pubkey.data.length ≤ MAX_SIZE) →
      (∀ input ∈ vin, input.witness = .new) ∧ Sized vin vout := by
    rintro vin vout ⟨hvin_length, hinputs⟩ ⟨hvout_length, houtputs⟩
    refine ⟨fun input hmem => (hinputs input hmem).2, hvin_length, fun input hmem => ⟨(hinputs input hmem).1, ?_⟩,
      hvout_length, houtputs⟩
    rw [(hinputs input hmem).2]
    exact ⟨by simp [Witness.new], by simp [Witness.new]⟩
  unfold decode_inputs_outputs
  rw [run_bind_eq_ok]
  constructor
  · rintro ⟨first, mid, hfirst, hnext⟩
    obtain ⟨hfirst_valid, rfl⟩ := hvin.run_eq_ok.mp hfirst
    split at hnext
    · next hmarker =>
      have hnil : first = [] := by simpa using hmarker
      subst hnil
      obtain ⟨found, _, hflags, hafter⟩ := run_bind_eq_ok.mp hnext
      obtain ⟨_, rfl⟩ := exact_decode_u8.run_eq_ok.mp hflags
      split at hafter
      · next hne =>
        simp only [run_bind_eq_ok, run_pure_eq_ok, hvin.run_eq_ok, hvout.run_eq_ok] at hafter
        obtain ⟨_, _, ⟨hvin_valid, rfl⟩, _, _, ⟨hvout_valid, rfl⟩, heq, rfl⟩ := hafter
        cases heq
        obtain ⟨hnew, hall⟩ := hsized hvin_valid hvout_valid
        exact ⟨hnew, hall, .inr (.inr ⟨hne, by rw [hempty]; rfl⟩)⟩
      · next hzero =>
        obtain ⟨heq, rfl⟩ := run_pure_eq_ok.mp hafter
        cases heq
        have hno_outputs : ([] : List TxOut).length ≤ MAX_SIZE ∧ ∀ output ∈ ([] : List TxOut),
            IntType.i64.fits output.value ∧ output.script_pubkey.data.length ≤ MAX_SIZE := by simp
        obtain ⟨hnew, hall⟩ := hsized hfirst_valid hno_outputs
        have hflags : flags = 0 := by simpa using hzero
        exact ⟨hnew, hall, .inr (.inl ⟨hflags, rfl, rfl, by rw [hempty, hflags]; rfl⟩)⟩
    · next hmarker =>
      simp only [run_bind_eq_ok, run_pure_eq_ok, hvout.run_eq_ok] at hnext
      obtain ⟨_, _, ⟨hvout_valid, rfl⟩, heq, rfl⟩ := hnext
      cases heq
      obtain ⟨hnew, hall⟩ := hsized hfirst_valid hvout_valid
      exact ⟨hnew, hall, .inl ⟨rfl, by simpa using hmarker, rfl⟩⟩
  · rintro ⟨hnew, hall, hcases⟩
    have hvin_valid : vin.length ≤ MAX_SIZE ∧
        ∀ input ∈ vin, input.script_sig.data.length ≤ MAX_SIZE ∧ input.witness = .new :=
      ⟨hall.vin_length, fun input hmem => ⟨(hall.inputs input hmem).1, hnew input hmem⟩⟩
    have hnone : ([] : List TxIn).length ≤ MAX_SIZE ∧
        ∀ input ∈ ([] : List TxIn), input.script_sig.data.length ≤ MAX_SIZE ∧ input.witness = .new := by simp
    obtain ⟨rfl, hne, rfl⟩ | ⟨rfl, rfl, rfl, rfl⟩ | ⟨hflags, rfl⟩ := hcases
    · refine ⟨vin, encode_vec TxOut.encode vout ++ rest, hvin.run_eq_ok.mpr ⟨hvin_valid, rfl⟩, ?_⟩
      rw [if_neg (by simpa using hne)]
      simp only [run_bind_eq_ok, run_pure_eq_ok, hvout.run_eq_ok]
      exact ⟨vout, rest, ⟨⟨hall.vout_length, hall.outputs⟩, rfl⟩, rfl, rfl⟩
    · refine ⟨[], 0 :: rest, hvin.run_eq_ok.mpr ⟨hnone, by rw [hempty]; rfl⟩, ?_⟩
      rw [if_pos (by simp)]
      simp only [run_bind_eq_ok, exact_decode_u8.run_eq_ok]
      refine ⟨0, rest, ⟨trivial, rfl⟩, ?_⟩
      rw [if_neg (by simp)]
      exact run_pure_eq_ok.mpr ⟨rfl, rfl⟩
    · refine ⟨[], flags :: (encode_vec TxIn.encode vin ++ (encode_vec TxOut.encode vout ++ rest)),
        hvin.run_eq_ok.mpr ⟨hnone, by rw [hempty]; rfl⟩, ?_⟩
      rw [if_pos (by simp)]
      simp only [run_bind_eq_ok, exact_decode_u8.run_eq_ok]
      refine ⟨flags, _, ⟨trivial, rfl⟩, ?_⟩
      rw [if_pos hflags]
      simp only [run_bind_eq_ok, run_pure_eq_ok, hvin.run_eq_ok, hvout.run_eq_ok]
      exact ⟨vin, _, ⟨hvin_valid, rfl⟩, vout, rest, ⟨⟨hall.vout_length, hall.outputs⟩, rfl⟩, rfl, rfl⟩

theorem decode_witness_section_eq_ok {input rest : List UInt8} {flags after : UInt8} {vin signed : List TxIn}
    (hnew : ∀ input ∈ vin, input.witness = .new) :
    (decode_witness_section true flags vin).run input = .ok ((after, signed), rest) ↔
      (flags &&& 1 = 0 ∧ after = flags ∧ signed = vin ∧ input = rest) ∨
      (flags &&& 1 ≠ 0 ∧ after = flags ^^^ 1 ∧ signed.map TxIn.without_witness = vin ∧
        (∀ input ∈ signed, input.witness.Sized) ∧ (signed.any fun input => !input.witness.is_null) = true ∧
        input = (signed.flatMap fun input => input.witness.encode) ++ rest) := by
  have hvin := map_without_witness hnew
  unfold decode_witness_section
  split
  · next hflag =>
    simp only [run_bind_eq_ok, run_pure_eq_ok, run_guard_or_eq_ok, decode_witnesses_eq_ok, hvin]
    constructor
    · rintro ⟨_, _, ⟨hsame, hsized, rfl⟩, _, _, ⟨hsome, rfl⟩, heq, rfl⟩
      cases heq
      exact .inr ⟨hflag.1, rfl, hsame, hsized, hsome, rfl⟩
    · rintro (⟨hzero, _⟩ | ⟨_, rfl, hsame, hsized, hsome, rfl⟩)
      · exact absurd hzero hflag.1
      · exact ⟨signed, rest, ⟨hsame, hsized, rfl⟩, (), rest, ⟨hsome, rfl⟩, rfl, rfl⟩
  · next hflag =>
    have hzero : flags &&& 1 = 0 := by simpa using hflag
    rw [run_pure_eq_ok]
    constructor
    · rintro ⟨heq, rfl⟩
      cases heq
      exact .inl ⟨hzero, rfl, rfl, rfl⟩
    · rintro (⟨_, rfl, rfl, rfl⟩ | ⟨hne, _⟩)
      · exact ⟨rfl, rfl⟩
      · exact absurd hzero hne

theorem flags_cleared {flags : UInt8} (hclear : flags ^^^ 1 = 0) : flags = 1 := by
  have hback : flags ^^^ 1 ^^^ 1 = 0 ^^^ 1 := by rw [hclear]
  rwa [UInt8.xor_assoc, UInt8.xor_self, UInt8.xor_zero, UInt8.zero_xor] at hback

/-- A transaction that has a wire form: its ids are those of its contents, it has
    inputs (or neither inputs nor outputs), and its parts are within the limits. -/
structure Sendable (hash256 : List UInt8 → Uint256) (tx : Transaction) : Prop where
  ids : tx = .new hash256 tx.version tx.vin tx.vout tx.lock_time
  inputs : tx.vin ≠ [] ∨ tx.vin = [] ∧ tx.vout = []
  sized : Sized tx.vin tx.vout

theorem deserialize_transaction_eq_ok (hash256 : List UInt8 → Uint256) {input rest : List UInt8} {tx : Transaction} :
    (deserialize_transaction hash256 true).run input = .ok (tx, rest) ↔
      Sendable hash256 tx ∧ input = serialize_transaction tx true ++ rest := by
  rw [serialize_transaction_eq]
  unfold deserialize_transaction
  simp only [run_bind_eq_ok, run_pure_eq_ok, run_guard_or_eq_ok, exact_decode_u32.run_eq_ok, true_and, beq_iff_eq]
  constructor
  · rintro ⟨version, _, rfl, ⟨flags, vin, vout⟩, mid, hparts, ⟨after, signed⟩, _, hsection, _, _, ⟨rfl, rfl⟩,
      lock_time, _, rfl, rfl, rfl⟩
    obtain ⟨hnew, hsized, hcases⟩ := decode_inputs_outputs_eq_ok.mp hparts
    obtain ⟨_, rfl, rfl, rfl⟩ | ⟨_, hclear, hsame, hwitness, hsome, rfl⟩ :=
      (decode_witness_section_eq_ok hnew).mp hsection
    · -- No witness was read, so none is written.
      have hnone : (Transaction.new hash256 version signed vout lock_time).has_witness = false :=
        has_witness_eq_false hnew
      rw [hnone]
      obtain ⟨_, hne, rfl⟩ | ⟨_, rfl, rfl, rfl⟩ | ⟨hflags, _⟩ := hcases
      · exact ⟨⟨rfl, .inl hne, hsized⟩, by simp [Transaction.new]⟩
      · exact ⟨⟨rfl, .inr ⟨rfl, rfl⟩, hsized⟩, rfl⟩
      · exact absurd rfl hflags
    · have hflags := flags_cleared hclear.symm
      subst hflags
      have hhas : (Transaction.new hash256 version signed vout lock_time).has_witness = true := hsome
      have hvin := map_without_witness hnew
      have hlength : signed.length = vin.length := by simpa using congrArg List.length hsame
      have hencode : encode_vec TxIn.encode signed = encode_vec TxIn.encode vin := by
        unfold encode_vec
        rw [hlength, flatMap_encode_without_witness (hsame.trans hvin.symm)]
      rw [hhas]
      obtain ⟨habsurd, _⟩ | ⟨habsurd, _⟩ | ⟨_, rfl⟩ := hcases
      · exact absurd habsurd (by decide)
      · exact absurd habsurd (by decide)
      · refine ⟨⟨rfl, .inl ?_, ?_, ?_, hsized.vout_length, hsized.outputs⟩, ?_⟩
        · rintro (rfl : signed = [])
          simp at hsome
        · exact hlength.trans_le hsized.vin_length
        · intro input hmem
          have hback : input.without_witness ∈ vin := by
            rw [← hsame]
            exact List.mem_map_of_mem hmem
          exact ⟨(hsized.inputs _ hback).1, hwitness input hmem⟩
        · rw [← hencode]
          simp [Transaction.new]
  · rintro ⟨⟨hids, hinputs, hsized⟩, rfl⟩
    refine ⟨tx.version, _, List.append_assoc .., ?_⟩
    cases hhas : tx.has_witness with
    | false =>
      have hnew := witness_eq_new hhas
      have hsection : (decode_witness_section true 0 tx.vin).run (encode_u32 tx.lock_time ++ rest) =
          .ok ((0, tx.vin), encode_u32 tx.lock_time ++ rest) :=
        (decode_witness_section_eq_ok hnew).mpr (.inl ⟨by decide, rfl, rfl, rfl⟩)
      refine ⟨(0, tx.vin, tx.vout), encode_u32 tx.lock_time ++ rest, ?_, (0, tx.vin), encode_u32 tx.lock_time ++ rest,
        hsection, (), encode_u32 tx.lock_time ++ rest, ⟨rfl, rfl⟩, tx.lock_time, rest, rfl, hids.symm, rfl⟩
      refine decode_inputs_outputs_eq_ok.mpr ⟨hnew, hsized, ?_⟩
      obtain hne | ⟨hvin, hvout⟩ := hinputs
      · exact .inl ⟨rfl, hne, by simp⟩
      · have hbytes : encode_vec TxIn.encode [] ++ encode_vec TxOut.encode [] = [0, 0] := by decide
        refine .inr (.inl ⟨rfl, hvin, hvout, ?_⟩)
        rw [hvin, hvout, ← hbytes]
        simp
    | true =>
      have hnew : ∀ input ∈ tx.vin.map TxIn.without_witness, input.witness = .new := by
        intro input hmem
        obtain ⟨signed, _, rfl⟩ := List.mem_map.mp hmem
        rfl
      have hstripped : Sized (tx.vin.map TxIn.without_witness) tx.vout := by
        refine ⟨by simpa using hsized.vin_length, ?_, hsized.vout_length, hsized.outputs⟩
        intro input hmem
        obtain ⟨signed, hsigned, rfl⟩ := List.mem_map.mp hmem
        exact ⟨(hsized.inputs signed hsigned).1, by simp [TxIn.without_witness, Witness.new, Witness.Sized]⟩
      have hencode : encode_vec TxIn.encode (tx.vin.map TxIn.without_witness) = encode_vec TxIn.encode tx.vin := by
        unfold encode_vec
        rw [List.length_map, List.flatMap_map]
        rfl
      have hsection : (decode_witness_section true 1 (tx.vin.map TxIn.without_witness)).run
          ((tx.vin.flatMap fun input => input.witness.encode) ++ (encode_u32 tx.lock_time ++ rest)) =
            .ok ((0, tx.vin), encode_u32 tx.lock_time ++ rest) :=
        (decode_witness_section_eq_ok hnew).mpr (.inr ⟨by decide, by decide, rfl,
          fun input hmem => (hsized.inputs input hmem).2, hhas, rfl⟩)
      refine ⟨(1, tx.vin.map TxIn.without_witness, tx.vout),
        (tx.vin.flatMap fun input => input.witness.encode) ++ (encode_u32 tx.lock_time ++ rest), ?_, (0, tx.vin),
        encode_u32 tx.lock_time ++ rest, hsection, (), encode_u32 tx.lock_time ++ rest, ⟨rfl, rfl⟩, tx.lock_time, rest,
        rfl, hids.symm, rfl⟩
      refine decode_inputs_outputs_eq_ok.mpr ⟨hnew, hstripped, .inr (.inr ⟨by decide, ?_⟩)⟩
      rw [hencode]
      simp

theorem serialize_transaction_new (hash256 : List UInt8 → Uint256) (tx : Transaction) (allow_witness : Bool) :
    serialize_transaction (.new hash256 tx.version tx.vin tx.vout tx.lock_time) allow_witness =
      serialize_transaction tx allow_witness := rfl

/-- Every transaction with inputs, or with neither inputs nor outputs, within the limits
    is read back from its wire form, with its ids; and every byte string that is accepted
    is the wire form of the result. -/
theorem transaction_wire_bijective (hash256 : List UInt8 → Uint256) :
    (∀ (tx : Transaction) (rest : List UInt8), (tx.vin ≠ [] ∨ tx.vin = [] ∧ tx.vout = []) → Sized tx.vin tx.vout →
      (deserialize_transaction hash256 true).run (serialize_transaction tx true ++ rest) =
        .ok (.new hash256 tx.version tx.vin tx.vout tx.lock_time, rest)) ∧
    (∀ (input : List UInt8) (tx : Transaction) (rest : List UInt8),
      (deserialize_transaction hash256 true).run input = .ok (tx, rest) →
        input = serialize_transaction tx true ++ rest) := by
  constructor
  · intro tx rest hinputs hsized
    rw [← serialize_transaction_new hash256 tx true]
    exact (deserialize_transaction_eq_ok hash256).mpr ⟨⟨rfl, hinputs, hsized⟩, rfl⟩
  · intro input tx rest hdecode
    exact ((deserialize_transaction_eq_ok hash256).mp hdecode).2

/-- A transaction with one input that carries a witness. -/
def witness_sample : Transaction :=
  .new crypto.sha256d 2 [⟨⟨1, 0⟩, .new, SEQUENCE_FINAL, ⟨[[0x30, 0x44], []]⟩⟩] [⟨100000, ⟨[0x51]⟩⟩] 0

theorem transaction_wire_bijective_witness_sample :
    (deserialize_transaction crypto.sha256d true).run (serialize_transaction witness_sample true ++ [7]) =
      .ok (witness_sample, [7]) := by
  apply (transaction_wire_bijective crypto.sha256d).1 witness_sample [7]
  · exact .inl (by decide)
  · refine ⟨by decide, ?_, by decide, ?_⟩
    · intro input hmem
      obtain rfl := List.mem_singleton.mp hmem
      decide
    · intro output hmem
      obtain rfl := List.mem_singleton.mp hmem
      decide

end qubitcoin.transaction

namespace qubitcoin.block

open qubitcoin.transaction

def BlockHeader.decode : Decoder BlockHeader := do
  let version ← decode_u32
  let prev_blockhash ← decode_uint256
  let merkle_root ← decode_uint256
  let time ← decode_u32
  let bits ← decode_u32
  let nonce ← decode_u32
  pure { version := version.toInt32, prev_blockhash, merkle_root, time, bits, nonce }

def Block.decode (hash256 : List UInt8 → Uint256) : Decoder Block := do
  let header ← BlockHeader.decode
  let tx_count ← read_compact_size
  let vtx ← decode_items (deserialize_transaction hash256 true) tx_count
  pure { header, vtx }

end qubitcoin.block
