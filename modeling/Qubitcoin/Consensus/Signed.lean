import Qubitcoin.Consensus.Sighash
import Qubitcoin.Consensus.Wire

/-! What a signature commits to: two digests are equal only where the signed parts are. -/

open qubitcoin codec primitives script transaction serialize

namespace qubitcoin.sighash

theorem length_uint256_data (x : Uint256) : x.data.length = 32 := littleEndian.length_toBytes 32 _

theorem uint256_data_inj {x y : Uint256} (heq : x.data = y.data) : x = y := by
  rw [← x.from_bytes_data, heq, y.from_bytes_data]

theorem length_encode_u32 (x : UInt32) : (encode_u32 x).length = 4 := littleEndian.length_toBytes 4 _

theorem length_encode_i64 (x : Int) : (encode_i64 x).length = 8 := littleEndian.length_toBytes 8 _

theorem encode_u32_ne_nil (x : UInt32) : encode_u32 x ≠ [] :=
  List.ne_nil_of_length_pos (by rw [length_encode_u32]; decide)

theorem outpoint_encode_ne_nil (outpoint : OutPoint) : outpoint.encode ≠ [] :=
  fun hnil => encode_u32_ne_nil _ (List.append_eq_nil_iff.mp hnil).2

theorem encode_i64_ne_nil (x : Int) : encode_i64 x ≠ [] :=
  List.ne_nil_of_length_pos (by rw [length_encode_i64]; decide)

theorem txout_encode_ne_nil (output : TxOut) : output.encode ≠ [] :=
  fun hnil => encode_i64_ne_nil _ (List.append_eq_nil_iff.mp hnil).1

/-- An output within the limits of its decoder. -/
def SizedOut (output : TxOut) : Prop :=
  IntType.i64.fits output.value ∧ output.script_pubkey.data.length ≤ MAX_SIZE

instance (output : TxOut) : Decidable (SizedOut output) := inferInstanceAs (Decidable (_ ∧ _))

/-- No two of some messages have one hash, and none has the hash that stands for no message. -/
structure Separates (hash : List UInt8 → Uint256) (absent : Uint256) (messages : Set (List UInt8)) : Prop where
  injOn : Set.InjOn hash messages
  ne_absent : ∀ message ∈ messages, hash message ≠ absent

theorem injOn_pair {B : Type} {hash : List UInt8 → B} {first second : Set (List UInt8)} {x y : List UInt8}
    (hfirst : ∀ bytes ∈ first, bytes = x) (hsecond : ∀ bytes ∈ second, bytes = y) (hdiffer : hash x ≠ hash y) :
    Set.InjOn hash (first ∪ second) := by
  rintro a (ha | ha) b (hb | hb) heq
  · rw [hfirst a ha, hfirst b hb]
  · rw [hfirst a ha, hsecond b hb] at heq
    exact absurd heq hdiffer
  · rw [hsecond a ha, hfirst b hb] at heq
    exact absurd heq.symm hdiffer
  · rw [hsecond a ha, hsecond b hb]

theorem separates_pair {hash : List UInt8 → Uint256} {absent : Uint256} {first second : Set (List UInt8)} {x y : List UInt8}
    (hfirst : ∀ bytes ∈ first, bytes = x) (hsecond : ∀ bytes ∈ second, bytes = y)
    (hdiffer : hash x ≠ hash y ∧ hash x ≠ absent ∧ hash y ≠ absent) : Separates hash absent (first ∪ second) where
  injOn := injOn_pair hfirst hsecond hdiffer.1
  ne_absent := by
    rintro a (ha | ha)
    · rw [hfirst a ha]
      exact hdiffer.2.1
    · rw [hsecond a ha]
      exact hdiffer.2.2

/-- The hash of a part, zeros where the part is not signed. -/
def part_hash (hash : List UInt8 → Uint256) (part : Option (List UInt8)) : List UInt8 :=
  part.elim (List.replicate 32 0) fun bytes => (hash bytes).data

theorem length_part_hash (hash : List UInt8 → Uint256) (part : Option (List UInt8)) : (part_hash hash part).length = 32 := by
  cases part with
  | none => rfl
  | some bytes => exact length_uint256_data _

theorem part_hash_inj {hash : List UInt8 → Uint256} {messages : Set (List UInt8)} (hseparates : Separates hash 0 messages)
    {part other : Option (List UInt8)} (hpart : ∀ bytes ∈ part, bytes ∈ messages)
    (hother : ∀ bytes ∈ other, bytes ∈ messages) (heq : part_hash hash part = part_hash hash other) : part = other := by
  have hzero : (0 : Uint256).data = List.replicate 32 0 := rfl
  cases part with
  | none =>
    cases other with
    | none => rfl
    | some bytes => exact absurd (uint256_data_inj (hzero.trans heq)).symm (hseparates.ne_absent bytes (hother bytes rfl))
  | some bytes =>
    cases other with
    | none => exact absurd (uint256_data_inj (heq.trans hzero.symm)) (hseparates.ne_absent bytes (hpart bytes rfl))
    | some bytes' => rw [hseparates.injOn (hpart bytes rfl) (hother bytes' rfl) (uint256_data_inj heq)]

theorem map_flatMap_inj {A : Type} {decode : Decoder A} {encode : A → List UInt8} {valid : A → Prop}
    (hexact : Exact decode encode valid) (hne : ∀ a, encode a ≠ []) {part other : Option (List A)}
    (hpart : ∀ as ∈ part, ∀ a ∈ as, valid a) (hother : ∀ as ∈ other, ∀ a ∈ as, valid a)
    (heq : part.map (List.flatMap encode) = other.map (List.flatMap encode)) : part = other := by
  cases part with
  | none =>
    cases other with
    | none => rfl
    | some bs => cases heq
  | some as =>
    cases other with
    | none => cases heq
    | some bs => rw [hexact.flatMap_inj hne (hpart as rfl) (hother bs rfl) (Option.some.inj heq)]

/-- What a segwit v0 signature is made for. -/
structure V0Use where
  script_code : Script
  tx : Transaction
  input_index : Nat
  hash_type : UInt32
  amount : Int
  spent_outputs : List TxOut

def V0Use.digest (hashes : Hashes) (use : V0Use) : Except Panic Uint256 :=
  witness_v0_signature_hash hashes use.script_code use.tx use.input_index use.hash_type use.amount
    (.new hashes use.tx use.spent_outputs)

structure V0Signed where
  version : UInt32
  prevouts : Option (List OutPoint)
  sequences : Option (List UInt32)
  prevout : OutPoint
  script_code : Script
  amount : Int
  sequence : UInt32
  outputs : Option (List TxOut)
  lock_time : UInt32
  hash_type : UInt32
  deriving DecidableEq

/-- The parts of a transaction that a type of signature signs for an input. -/
def V0Use.signed (use : V0Use) : Option V0Signed :=
  let base_type := use.hash_type &&& SIGHASH_OUTPUT_MASK
  let anyone_can_pay := use.hash_type &&& SIGHASH_ANYONECANPAY ≠ 0
  let all_outputs := base_type ≠ SIGHASH_SINGLE ∧ base_type ≠ SIGHASH_NONE
  use.tx.vin[use.input_index]?.map fun input =>
    { version := use.tx.version
      prevouts := if anyone_can_pay then none else some (use.tx.vin.map TxIn.prevout)
      sequences := if ¬ anyone_can_pay ∧ all_outputs then some (use.tx.vin.map TxIn.sequence) else none
      prevout := input.prevout
      script_code := use.script_code
      amount := use.amount
      sequence := input.sequence
      outputs := if all_outputs then some use.tx.vout
        else if base_type = SIGHASH_SINGLE then use.tx.vout[use.input_index]?.map fun output => [output] else none
      lock_time := use.tx.lock_time
      hash_type := use.hash_type }

/-- The bytes of the parts that are hashed on their own. -/
def V0Signed.parts (signed : V0Signed) : List (Option (List UInt8)) :=
  [signed.prevouts.map (List.flatMap OutPoint.encode), signed.sequences.map (List.flatMap encode_u32),
    signed.outputs.map (List.flatMap TxOut.encode)]

def V0Signed.message (hash256 : List UInt8 → Uint256) (signed : V0Signed) : List UInt8 :=
  encode_u32 signed.version ++ part_hash hash256 (signed.prevouts.map (List.flatMap OutPoint.encode)) ++
    part_hash hash256 (signed.sequences.map (List.flatMap encode_u32)) ++ signed.prevout.encode ++
    encode_script signed.script_code ++ encode_i64 signed.amount ++ encode_u32 signed.sequence ++
    part_hash hash256 (signed.outputs.map (List.flatMap TxOut.encode)) ++ encode_u32 signed.lock_time ++
    encode_u32 signed.hash_type

def V0Use.messages (hash256 : List UInt8 → Uint256) (use : V0Use) : Set (List UInt8) :=
  {bytes | ∃ signed ∈ use.signed, bytes = signed.message hash256 ∨ some bytes ∈ signed.parts}

/-- The amount, the script code and the outputs are within the limits of their decoders. -/
structure V0Use.Sized (use : V0Use) : Prop where
  script_code : use.script_code.data.length ≤ MAX_SIZE
  amount : IntType.i64.fits use.amount
  vout : ∀ output ∈ use.tx.vout, SizedOut output

theorem V0Use.digest_eq (hashes : Hashes) (use : V0Use) :
    use.digest hashes =
      match use.signed with
      | none => .error .index_out_of_bounds
      | some signed => .ok (hashes.hash256 (signed.message hashes.hash256)) := by
  unfold V0Use.digest witness_v0_signature_hash V0Use.signed
  cases use.tx.vin[use.input_index]? with
  | none => rfl
  | some input =>
    dsimp only [Option.map_some, PrecomputedTransactionData.new, V0Signed.message]
    congr 2
    congr 3
    · congr 4
      congr 1
      · congr 1
        split
        · rfl
        · rw [Option.map_some, List.flatMap_map]
          rfl
      · split
        · rw [Option.map_some, List.flatMap_map]
          rfl
        · rfl
    · split
      · rfl
      · cases use.tx.vout[use.input_index]? with
        | none =>
          rw [Option.map_none, ite_self]
          rfl
        | some output =>
          dsimp only
          split
          · rw [Option.map_some, Option.map_some, List.flatMap_singleton]
            rfl
          · rfl

theorem encode_u32_append_inj {a b : UInt32} {rest rest' : List UInt8}
    (heq : encode_u32 a ++ rest = encode_u32 b ++ rest') : a = b ∧ rest = rest' :=
  exact_decode_u32.append_inj trivial trivial heq

/-- The amount, the script code and the outputs that are signed are within the limits. -/
structure V0Signed.Sized (signed : V0Signed) : Prop where
  script_code : signed.script_code.data.length ≤ MAX_SIZE
  amount : IntType.i64.fits signed.amount
  outputs : ∀ outputs ∈ signed.outputs, ∀ output ∈ outputs, SizedOut output

theorem V0Use.Sized.signed {use : V0Use} (hsized : use.Sized) {signed : V0Signed} (hsigned : use.signed = some signed) :
    signed.Sized := by
  unfold V0Use.signed at hsigned
  obtain ⟨input, _, rfl⟩ := Option.map_eq_some_iff.mp hsigned
  refine ⟨hsized.script_code, hsized.amount, ?_⟩
  intro outputs houtputs output hmem
  dsimp only at houtputs
  split at houtputs
  · cases houtputs
    exact hsized.vout output hmem
  · split at houtputs
    · obtain ⟨only, honly, rfl⟩ := Option.map_eq_some_iff.mp houtputs
      rw [List.mem_singleton.mp hmem]
      exact hsized.vout only (List.mem_of_getElem? honly)
    · cases houtputs

theorem V0Signed.message_inj {hash256 : List UInt8 → Uint256} {messages : Set (List UInt8)}
    (hseparates : Separates hash256 0 messages) {signed other : V0Signed} (hsized : signed.Sized) (hsized' : other.Sized)
    (hparts : ∀ bytes, some bytes ∈ signed.parts → bytes ∈ messages)
    (hparts' : ∀ bytes, some bytes ∈ other.parts → bytes ∈ messages)
    (heq : signed.message hash256 = other.message hash256) : signed = other := by
  unfold V0Signed.message at heq
  simp only [List.append_assoc] at heq
  obtain ⟨hversion, heq⟩ := encode_u32_append_inj heq
  obtain ⟨hprevouts, heq⟩ := List.append_inj heq (by rw [length_part_hash, length_part_hash])
  obtain ⟨hsequences, heq⟩ := List.append_inj heq (by rw [length_part_hash, length_part_hash])
  obtain ⟨hprevout, heq⟩ := OutPoint.exact_decode.append_inj trivial trivial heq
  obtain ⟨hscript, heq⟩ := exact_decode_script.append_inj hsized.script_code hsized'.script_code heq
  obtain ⟨hamount, heq⟩ := exact_decode_i64.append_inj hsized.amount hsized'.amount heq
  obtain ⟨hsequence, heq⟩ := encode_u32_append_inj heq
  obtain ⟨houtputs, heq⟩ := List.append_inj heq (by rw [length_part_hash, length_part_hash])
  obtain ⟨hlock_time, heq⟩ := encode_u32_append_inj heq
  have hhash_type := exact_decode_u32.inj trivial trivial heq
  have hpart : ∀ {part other_part : Option (List UInt8)}, part ∈ signed.parts → other_part ∈ other.parts →
      part_hash hash256 part = part_hash hash256 other_part → part = other_part := by
    intro part other_part hmem hmem'
    refine part_hash_inj hseparates (fun bytes hbytes => hparts bytes ?_) (fun bytes hbytes => hparts' bytes ?_)
    · rwa [← Option.mem_def.mp hbytes]
    · rwa [← Option.mem_def.mp hbytes]
  have hprevouts := map_flatMap_inj OutPoint.exact_decode outpoint_encode_ne_nil (fun _ _ _ _ => trivial)
    (fun _ _ _ _ => trivial) (hpart (by simp [V0Signed.parts]) (by simp [V0Signed.parts]) hprevouts)
  have hsequences := map_flatMap_inj exact_decode_u32 encode_u32_ne_nil (fun _ _ _ _ => trivial)
    (fun _ _ _ _ => trivial) (hpart (by simp [V0Signed.parts]) (by simp [V0Signed.parts]) hsequences)
  have houtputs := map_flatMap_inj TxOut.exact_decode txout_encode_ne_nil hsized.outputs hsized'.outputs
    (hpart (by simp [V0Signed.parts]) (by simp [V0Signed.parts]) houtputs)
  obtain ⟨_, _, _, _, _, _, _, _, _, _⟩ := signed
  obtain ⟨_, _, _, _, _, _, _, _, _, _⟩ := other
  simp only at hversion hprevouts hsequences hprevout hscript hamount hsequence houtputs hlock_time hhash_type
  rw [hversion, hprevouts, hsequences, hprevout, hscript, hamount, hsequence, houtputs, hlock_time, hhash_type]

/-- Two segwit v0 signatures have one digest if and only if they sign the same, unless two of the
    messages that are hashed for them collide. -/
theorem witness_v0_signature_hash_binds (hashes : Hashes) {use other : V0Use} (hsized : use.Sized) (hsized' : other.Sized)
    (hseparates : Separates hashes.hash256 0 (use.messages hashes.hash256 ∪ other.messages hashes.hash256)) :
    use.digest hashes = other.digest hashes ↔ use.signed = other.signed := by
  rw [V0Use.digest_eq, V0Use.digest_eq]
  cases hsigned : use.signed with
  | none =>
    cases hother : other.signed with
    | none => exact ⟨fun _ => rfl, fun _ => rfl⟩
    | some signed' => exact ⟨nofun, nofun⟩
  | some signed =>
    cases hother : other.signed with
    | none => exact ⟨nofun, nofun⟩
    | some signed' =>
      constructor
      · intro heq
        have hmessage := hseparates.injOn (.inl ⟨signed, hsigned, .inl rfl⟩) (.inr ⟨signed', hother, .inl rfl⟩)
          (Except.ok.inj heq)
        rw [V0Signed.message_inj hseparates (hsized.signed hsigned) (hsized'.signed hother)
          (fun bytes hmem => .inl ⟨signed, hsigned, .inr hmem⟩) (fun bytes hmem => .inr ⟨signed', hother, .inr hmem⟩)
          hmessage]
      · intro heq
        rw [Option.some.inj heq]

/-- A signature for the one input of a payment, whatever else is in the transaction. -/
def lone_use (amount : Int) : V0Use := ⟨⟨[0x51]⟩, one_payment, 0, SIGHASH_NONE ||| SIGHASH_ANYONECANPAY, amount, []⟩

theorem lone_use_signed (amount : Int) :
    (lone_use amount).signed = some ⟨2, none, none, ⟨7, 0⟩, ⟨[0x51]⟩, amount, SEQUENCE_FINAL, none, 0, 0x82⟩ := by
  have hanyone : (SIGHASH_NONE ||| SIGHASH_ANYONECANPAY) &&& SIGHASH_ANYONECANPAY ≠ 0 := by decide
  have hnone : (SIGHASH_NONE ||| SIGHASH_ANYONECANPAY) &&& SIGHASH_OUTPUT_MASK = SIGHASH_NONE := by decide
  unfold V0Use.signed lone_use
  dsimp only
  rw [if_pos hanyone, if_neg (fun h => h.1 hanyone), hnone, if_neg (fun h => h.2 rfl), if_neg (by decide)]
  rfl

theorem lone_use_messages (hash256 : List UInt8 → Uint256) (amount : Int) : ∀ bytes ∈ (lone_use amount).messages hash256,
    bytes = V0Signed.message hash256 ⟨2, none, none, ⟨7, 0⟩, ⟨[0x51]⟩, amount, SEQUENCE_FINAL, none, 0, 0x82⟩ := by
  rintro bytes ⟨signed, hsigned, hbytes⟩
  rw [lone_use_signed] at hsigned
  cases hsigned
  obtain rfl | hpart := hbytes
  · rfl
  · simp [V0Signed.parts] at hpart

theorem witness_v0_signature_hash_binds_amount :
    (lone_use 5).digest sha256_hashes ≠ (lone_use 6).digest sha256_hashes := by
  intro heq
  have hseparates : Separates sha256_hashes.hash256 0
      ((lone_use 5).messages sha256_hashes.hash256 ∪ (lone_use 6).messages sha256_hashes.hash256) :=
    separates_pair (lone_use_messages _ 5) (lone_use_messages _ 6) (by decide +kernel)
  have hsigned := (witness_v0_signature_hash_binds sha256_hashes ⟨by decide, by decide, by decide⟩
    ⟨by decide, by decide, by decide⟩ hseparates).mp heq
  rw [lone_use_signed, lone_use_signed] at hsigned
  exact absurd (congrArg V0Signed.amount (Option.some.inj hsigned)) (by decide)

end qubitcoin.sighash
