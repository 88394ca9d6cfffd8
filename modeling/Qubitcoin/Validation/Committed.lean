import Qubitcoin.Consensus.Wire
import Qubitcoin.Validation.CheckBlock

/-! A header fixes its block: the transactions through the merkle root, their witnesses
    through the commitment of the coinbase. -/

open qubitcoin primitives script transaction block params check validation_state merkle serialize

namespace qubitcoin.transaction

/-- The ids of a transaction are those of its contents. -/
def Transaction.Identified (hash256 : List UInt8 → Uint256) (self : Transaction) : Prop :=
  self = .new hash256 self.version self.vin self.vout self.lock_time

/-- A transaction without the witnesses of its inputs. -/
def Transaction.without_witness (hash256 : List UInt8 → Uint256) (self : Transaction) : Transaction :=
  .new hash256 self.version (self.vin.map TxIn.without_witness) self.vout self.lock_time

theorem serialize_without_witness (hash256 : List UInt8 → Uint256) (tx : Transaction) :
    serialize_transaction tx false = serialize_transaction (tx.without_witness hash256) true := by
  have hnone : (tx.without_witness hash256).has_witness = false := by
    apply has_witness_eq_false
    intro input hmem
    obtain ⟨signed, _, rfl⟩ := List.mem_map.mp hmem
    rfl
  have hencode : (tx.vin.map TxIn.without_witness).flatMap TxIn.encode = tx.vin.flatMap TxIn.encode := by
    rw [List.flatMap_map]
    rfl
  unfold serialize_transaction
  rw [hnone]
  simp [Transaction.without_witness, Transaction.new, hencode]

theorem length_le_flatMap_of_mem {β γ : Type} {f : β → List γ} {x : β} {items : List β} (hmem : x ∈ items) :
    (f x).length ≤ (items.flatMap f).length := by
  rw [List.length_flatMap]
  exact List.le_sum_of_mem (List.mem_map_of_mem hmem)

theorem length_le_flatMap {β γ : Type} {f : β → List γ} (hpositive : ∀ x, 1 ≤ (f x).length) (items : List β) :
    items.length ≤ (items.flatMap f).length := by
  induction items with
  | nil => simp
  | cons x rest ih =>
    have := hpositive x
    rw [List.flatMap_cons, List.length_append, List.length_cons]
    omega

theorem one_le_length_write_compact_size (size : Nat) : 1 ≤ (write_compact_size size).length := by
  unfold write_compact_size
  split
  · simp
  · split
    · simp
    · split <;> simp

theorem Witness.sized_of_length {witness : Witness} (hlength : witness.encode.length ≤ MAX_SIZE) : witness.Sized := by
  unfold Witness.encode at hlength
  rw [List.length_append] at hlength
  have hitems := length_le_flatMap (f := fun item => write_compact_size item.length ++ item) (fun item => by
    have := one_le_length_write_compact_size item.length
    rw [List.length_append]
    omega) witness.stack
  refine ⟨by omega, ?_⟩
  intro item hmem
  have hitem := length_le_flatMap_of_mem (f := fun item => write_compact_size item.length ++ item) hmem
  rw [List.length_append] at hitem
  omega

theorem TxIn.length_encode (input : TxIn) : input.script_sig.data.length + 1 ≤ input.encode.length := by
  have := one_le_length_write_compact_size input.script_sig.len
  unfold TxIn.encode encode_script
  simp only [List.length_append]
  omega

theorem TxOut.length_encode (output : TxOut) : output.script_pubkey.data.length + 1 ≤ output.encode.length := by
  have := one_le_length_write_compact_size output.script_pubkey.len
  unfold TxOut.encode encode_script
  simp only [List.length_append]
  omega

theorem sized_of_length {tx : Transaction} (hlength : (serialize_transaction tx true).length ≤ MAX_SIZE)
    (hvalues : ∀ output ∈ tx.vout, IntType.i64.fits output.value) : Sized tx.vin tx.vout := by
  rw [serialize_transaction_eq] at hlength
  unfold encode_vec at hlength
  simp only [List.length_append] at hlength
  have hvin := length_le_flatMap (f := TxIn.encode) (fun input => by have := input.length_encode; omega) tx.vin
  have hvout := length_le_flatMap (f := TxOut.encode) (fun output => by have := output.length_encode; omega) tx.vout
  refine ⟨by omega, ?_, by omega, ?_⟩
  · intro input hmem
    have hinput := length_le_flatMap_of_mem (f := TxIn.encode) hmem
    have hscript := input.length_encode
    refine ⟨by omega, ?_⟩
    cases hhas : tx.has_witness with
    | false =>
      rw [witness_eq_new hhas input hmem]
      simp [Witness.Sized, Witness.new]
    | true =>
      have hwitness := length_le_flatMap_of_mem (f := fun input : TxIn => input.witness.encode) hmem
      rw [hhas] at hlength
      apply Witness.sized_of_length
      simp only [if_true] at hlength
      omega
  · intro output hmem
    have houtput := length_le_flatMap_of_mem (f := TxOut.encode) hmem
    have hscript := output.length_encode
    exact ⟨hvalues output hmem, by omega⟩

theorem Sized.without_witness {vin : List TxIn} {vout : List TxOut} (hsized : Sized vin vout) :
    Sized (vin.map TxIn.without_witness) vout := by
  refine ⟨by simpa using hsized.vin_length, ?_, hsized.vout_length, hsized.outputs⟩
  intro input hmem
  obtain ⟨signed, hsigned, rfl⟩ := List.mem_map.mp hmem
  exact ⟨(hsized.inputs signed hsigned).1, by simp [TxIn.without_witness, Witness.new, Witness.Sized]⟩

theorem Sendable.without_witness {hash256 : List UInt8 → Uint256} {tx : Transaction} (hsendable : Sendable hash256 tx) :
    Sendable hash256 (tx.without_witness hash256) := by
  refine ⟨rfl, ?_, hsendable.sized.without_witness⟩
  obtain hvin | ⟨hvin, hvout⟩ := hsendable.inputs
  · exact .inl fun hnil => hvin (List.map_eq_nil_iff.mp hnil)
  · exact .inr ⟨List.map_eq_nil_iff.mpr hvin, hvout⟩

theorem Sendable.eq_of_serialize {hash256 : List UInt8 → Uint256} {tx other : Transaction} (hsendable : Sendable hash256 tx)
    (hother : Sendable hash256 other) (hsame : serialize_transaction tx true = serialize_transaction other true) :
    tx = other := by
  have hread := (deserialize_transaction_eq_ok hash256).mpr ⟨hsendable, (List.append_nil _).symm⟩
  have hread_other := (deserialize_transaction_eq_ok hash256).mpr ⟨hother, (List.append_nil _).symm⟩
  rw [hsame, hread_other] at hread
  exact congrArg Prod.fst (Except.ok.inj hread).symm

/-- Transactions with one txid, whose wire forms do not collide, differ at most in their witnesses. -/
theorem Sendable.without_witness_eq {hash256 : List UInt8 → Uint256} {tx other : Transaction} {bytes : Set (List UInt8)}
    (hinj : Set.InjOn hash256 bytes) (hmem : serialize_transaction tx false ∈ bytes)
    (hother_mem : serialize_transaction other false ∈ bytes) (hsendable : Sendable hash256 tx)
    (hother : Sendable hash256 other) (htxid : tx.txid = other.txid) :
    tx.without_witness hash256 = other.without_witness hash256 := by
  have hhash : hash256 (serialize_transaction tx false) = hash256 (serialize_transaction other false) := by
    rw [hsendable.ids, hother.ids] at htxid
    exact htxid
  have hbytes := hinj hmem hother_mem hhash
  rw [serialize_without_witness hash256, serialize_without_witness hash256] at hbytes
  exact hsendable.without_witness.eq_of_serialize hother.without_witness hbytes

end qubitcoin.transaction

namespace qubitcoin.validation

variable (env : Env)

def witness_leaves (txs : List Transaction) : List Uint256 :=
  match txs with
  | [] => []
  | _ :: rest => 0 :: rest.map Transaction.wtxid

/-- The byte strings that are hashed for a block below its header: its transactions with and
    without witnesses, the pairs of its two trees, and the witness root with the reserved
    value of the coinbase. -/
def hashed_bytes (block : Block) : Set (List UInt8) :=
  { bytes | (∃ tx ∈ block.vtx, ∃ allow_witness, bytes = serialize_transaction tx allow_witness) ∨
    (∃ children ∈ hashed_pairs (hash_pair env.hash256) (block.vtx.map Transaction.txid) ∪
      hashed_pairs (hash_pair env.hash256) (witness_leaves block.vtx),
        bytes = Uint256.data children.1 ++ Uint256.data children.2) ∨
    (∃ coinbase ∈ block.vtx.head?, ∃ input ∈ coinbase.vin.head?, ∃ witness_reserved ∈ input.witness.stack.head?,
      bytes = Uint256.data (block_witness_merkle_root env.hash256 block.vtx).1 ++ witness_reserved) }

/-- The checks have accepted a block at a height where segwit is active. -/
structure Accepted (block : Block) : Prop where
  root : block.header.merkle_root = (block_merkle_root env.hash256 block.vtx).1
  unmutated : (block_merkle_root env.hash256 block.vtx).2 = false
  short : ∀ tx ∈ block.vtx, (serialize_transaction tx true).length ≤ MAX_SIZE
  checked : CheckedBlock block
  witness : check_witness_rules env block = .ok ()

theorem accepted_of_checks {block : Block} {params : ConsensusParams} {prev_height prev_median_time : Int}
    (hactive : params.segwit_height ≤ prev_height + 1) (hblock : check_block env block params true = .ok ())
    (hcontextual : contextual_check_block env block prev_height prev_median_time params = .ok ()) :
    Accepted env block := by
  have hchecked := check_block_ok env hblock
  unfold check_block at hblock
  obtain ⟨_, _, hblock⟩ := bind_eq_ok_iff.mp hblock
  obtain ⟨_, _, hblock⟩ := bind_eq_ok_iff.mp hblock
  obtain ⟨_, hmerkle, hblock⟩ := bind_eq_ok_iff.mp hblock
  obtain ⟨_, hlength, _⟩ := bind_eq_ok_iff.mp hblock
  unfold check_merkle at hmerkle
  rw [if_pos rfl] at hmerkle
  obtain ⟨_, hroot, hunmutated⟩ := bind_eq_ok_iff.mp hmerkle
  have hlength := of_decide_eq_true (require_eq_ok.mp hlength)
  unfold contextual_check_block at hcontextual
  obtain ⟨height, hheight, hcontextual⟩ := bind_eq_ok_iff.mp hcontextual
  obtain ⟨rfl, _⟩ := checked_eq_ok.mp hheight
  obtain ⟨_, _, hcontextual⟩ := bind_eq_ok_iff.mp hcontextual
  dsimp only at hcontextual
  rw [if_pos (decide_eq_true hactive)] at hcontextual
  obtain ⟨_, hwitness, _⟩ := bind_eq_ok_iff.mp hcontextual
  refine ⟨eq_of_beq (require_eq_ok.mp hroot), (Bool.not_eq_true' _).mp (require_eq_ok.mp hunmutated), ?_, hchecked, hwitness⟩
  intro tx hmem
  have htx := length_le_flatMap_of_mem (f := fun tx => serialize_transaction tx true) hmem
  unfold Block.encode at hlength
  rw [List.length_append] at hlength
  have hlimit : MAX_BLOCK_SERIALIZED_SIZE ≤ MAX_SIZE := by decide
  omega

theorem Accepted.sized {block : Block} (haccepted : Accepted env block) {tx : Transaction}
    (hmem : tx ∈ block.vtx) : Sized tx.vin tx.vout := by
  apply sized_of_length (haccepted.short tx hmem)
  intro output houtput
  have hvalue := money_range_iff.mp ((haccepted.checked.checked tx hmem).values output houtput)
  constructor <;> norm_num <;> omega

theorem Accepted.sendable {block : Block} (haccepted : Accepted env block) {tx : Transaction} (hmem : tx ∈ block.vtx)
    (hids : tx.Identified env.hash256) : Sendable env.hash256 tx :=
  ⟨hids, .inl (haccepted.checked.checked tx hmem).vin_nonempty, haccepted.sized env hmem⟩

/-- Two blocks for which no two of the byte strings that are hashed collide, and no pair has
    the hash of a transaction. -/
structure Distinguished (block other : Block) : Prop where
  inj : Set.InjOn env.hash256 (hashed_bytes env block ∪ hashed_bytes env other)
  leaves : ∀ tx ∈ block.vtx ++ other.vtx, ∀ children ∈ hashed_pairs (hash_pair env.hash256) (block.vtx.map Transaction.txid) ∪
    hashed_pairs (hash_pair env.hash256) (other.vtx.map Transaction.txid),
      hash_pair env.hash256 children.1 children.2 ≠ tx.txid

variable {env}

theorem data_inj {a b : Uint256} (hdata : Uint256.data a = Uint256.data b) : a = b := by
  rw [← Uint256.from_bytes_data a, ← Uint256.from_bytes_data b, hdata]

theorem length_data (a : Uint256) : (Uint256.data a).length = 32 := littleEndian.length_toBytes 32 _

theorem collisionFree_of_injOn {hash256 : List UInt8 → Uint256} {bytes : Set (List UInt8)} (hinj : Set.InjOn hash256 bytes) :
    CollisionFree (hash_pair hash256) { children | Uint256.data children.1 ++ Uint256.data children.2 ∈ bytes } := by
  intro left hleft right hright hhash
  have hbytes := hinj hleft hright hhash
  obtain ⟨hfirst, hsecond⟩ := List.append_inj hbytes (by rw [length_data, length_data])
  exact Prod.ext (data_inj hfirst) (data_inj hsecond)

theorem Distinguished.collisionFree {block other : Block} (hdistinct : Distinguished env block other) :
    CollisionFree (hash_pair env.hash256) { children | Uint256.data children.1 ++ Uint256.data children.2 ∈
      hashed_bytes env block ∪ hashed_bytes env other } :=
  collisionFree_of_injOn hdistinct.inj

theorem txids_eq {block other : Block} (hdistinct : Distinguished env block other) (hblock : Accepted env block)
    (hother : Accepted env other) (hheader : block.header = other.header) :
    block.vtx.map Transaction.txid = other.vtx.map Transaction.txid := by
  have hnonempty : block.vtx.map Transaction.txid ≠ [] := fun hnil => hblock.checked.nonempty (List.map_eq_nil_iff.mp hnil)
  have hother_nonempty : other.vtx.map Transaction.txid ≠ [] :=
    fun hnil => hother.checked.nonempty (List.map_eq_nil_iff.mp hnil)
  have hfree : CollisionFree (hash_pair env.hash256)
      (hashed_pairs (hash_pair env.hash256) (block.vtx.map Transaction.txid) ∪
        hashed_pairs (hash_pair env.hash256) (other.vtx.map Transaction.txid)) := by
    apply hdistinct.collisionFree.mono
    rintro children (hmem | hmem)
    · exact .inl (.inr (.inl ⟨children, .inl hmem, rfl⟩))
    · exact .inr (.inr (.inl ⟨children, .inl hmem, rfl⟩))
  have hroot : (block_merkle_root env.hash256 block.vtx).1 = (block_merkle_root env.hash256 other.vtx).1 :=
    hblock.root.symm.trans ((congrArg BlockHeader.merkle_root hheader).trans hother.root)
  have hleaves : ∀ leaf ∈ block.vtx.map Transaction.txid ++ other.vtx.map Transaction.txid,
      ∀ children ∈ hashed_pairs (hash_pair env.hash256) (block.vtx.map Transaction.txid) ∪
        hashed_pairs (hash_pair env.hash256) (other.vtx.map Transaction.txid),
          hash_pair env.hash256 children.1 children.2 ≠ leaf := by
    intro leaf hmem
    rw [← List.map_append] at hmem
    obtain ⟨tx, htx, rfl⟩ := List.mem_map.mp hmem
    exact hdistinct.leaves tx htx
  obtain heq | hmutated | hmutated := eq_or_mutated hfree 0 hnonempty hother_nonempty Set.subset_union_left
    Set.subset_union_right hleaves hroot
  · exact heq
  · exact absurd (hblock.unmutated.symm.trans hmutated) (by decide)
  · exact absurd (hother.unmutated.symm.trans hmutated) (by decide)

theorem without_witness_eq {block other : Block} (hdistinct : Distinguished env block other)
    (hblock : Accepted env block) (hother : Accepted env other) {tx tx' : Transaction} (hmem : tx ∈ block.vtx)
    (hmem' : tx' ∈ other.vtx) (hids : tx.Identified env.hash256) (hids' : tx'.Identified env.hash256)
    (htxid : tx.txid = tx'.txid) : tx.without_witness env.hash256 = tx'.without_witness env.hash256 := by
  have hbytes : serialize_transaction tx false ∈ hashed_bytes env block ∪ hashed_bytes env other :=
    .inl (.inl ⟨tx, hmem, false, rfl⟩)
  have hbytes' : serialize_transaction tx' false ∈ hashed_bytes env block ∪ hashed_bytes env other :=
    .inr (.inl ⟨tx', hmem', false, rfl⟩)
  exact (hblock.sendable env hmem hids).without_witness_eq hdistinct.inj hbytes hbytes' (hother.sendable env hmem' hids')
    htxid

theorem eq_of_wtxid {block other : Block} (hdistinct : Distinguished env block other)
    (hblock : Accepted env block) (hother : Accepted env other) {tx tx' : Transaction} (hmem : tx ∈ block.vtx)
    (hmem' : tx' ∈ other.vtx) (hids : tx.Identified env.hash256) (hids' : tx'.Identified env.hash256)
    (hwtxid : tx.wtxid = tx'.wtxid) : tx = tx' := by
  have hhash : env.hash256 (serialize_transaction tx true) = env.hash256 (serialize_transaction tx' true) := by
    rw [hids, hids'] at hwtxid
    exact hwtxid
  have hbytes := hdistinct.inj (.inl (.inl ⟨tx, hmem, true, rfl⟩)) (.inr (.inl ⟨tx', hmem', true, rfl⟩)) hhash
  exact (hblock.sendable env hmem hids).eq_of_serialize (hother.sendable env hmem' hids') hbytes

theorem eq_of_witnesses {tx tx' : Transaction} (hids : tx.Identified env.hash256) (hids' : tx'.Identified env.hash256)
    (hsame : tx.without_witness env.hash256 = tx'.without_witness env.hash256)
    (hwitness : tx.vin.map TxIn.witness = tx'.vin.map TxIn.witness) : tx = tx' := by
  have hversion : tx.version = tx'.version := by
    have := congrArg Transaction.version hsame
    exact this
  have hvout : tx.vout = tx'.vout := by
    have := congrArg Transaction.vout hsame
    exact this
  have hlock : tx.lock_time = tx'.lock_time := by
    have := congrArg Transaction.lock_time hsame
    exact this
  have hstripped : tx.vin.map TxIn.without_witness = tx'.vin.map TxIn.without_witness := congrArg Transaction.vin hsame
  have hvin : tx.vin = tx'.vin := by
    generalize tx.vin = vin at hstripped hwitness
    generalize tx'.vin = vin' at hstripped hwitness
    induction vin generalizing vin' with
    | nil => exact (List.map_eq_nil_iff.mp hstripped.symm).symm
    | cons input rest ih =>
      cases vin' with
      | nil => cases hstripped
      | cons input' rest' =>
        rw [List.map_cons, List.map_cons, List.cons.injEq] at hstripped hwitness
        obtain ⟨prevout, script_sig, sequence, witness⟩ := input
        obtain ⟨prevout', script_sig', sequence', witness'⟩ := input'
        obtain ⟨hhead, htail⟩ := hstripped
        obtain ⟨rfl : witness = witness', hwitness⟩ := hwitness
        cases hhead
        rw [ih rest' htail hwitness]
  rw [hids, hids', hversion, hvin, hvout, hlock]

def commitment_output (coinbase : Transaction) : Option TxOut :=
  coinbase.vout.reverse.find? fun output => is_witness_commitment output.script_pubkey

/-- The ways through the witness rules: without a commitment no input has a witness, and with
    one it is that of the witness root and of the reserved value. -/
theorem check_witness_rules_ok {coinbase : Transaction} {block : Block} {rest : List Transaction}
    (hvtx : block.vtx = coinbase :: rest) (hrules : check_witness_rules env block = .ok ()) :
    (commitment_output coinbase = none ∧ ∀ tx ∈ block.vtx, tx.has_witness = false) ∨
      ∃ output input witness_reserved, commitment_output coinbase = some output ∧ coinbase.vin.head? = some input ∧
        input.witness.stack = [witness_reserved] ∧
        (output.script_pubkey.data.drop 6).take 32 = Uint256.data (env.hash256
          (Uint256.data (block_witness_merkle_root env.hash256 block.vtx).1 ++ witness_reserved)) := by
  unfold check_witness_rules check_witness_commitment at hrules
  rw [hvtx] at hrules ⊢
  dsimp only at hrules
  cases hfind : commitment_output coinbase with
  | none =>
    unfold commitment_output at hfind
    rw [hfind] at hrules
    refine .inl ⟨rfl, ?_⟩
    have hall := require_eq_ok.mp hrules
    rw [List.all_eq_true] at hall
    exact fun tx hmem => (Bool.not_eq_true' _).mp (hall tx hmem)
  | some output =>
    unfold commitment_output at hfind
    rw [hfind] at hrules
    dsimp only at hrules
    cases hhead : coinbase.vin.head? with
    | none =>
      rw [hhead] at hrules
      cases hrules
    | some input =>
      rw [hhead, Option.map_some] at hrules
      split at hrules
      · next matched hmatched =>
        split at hmatched
        · next witness_reserved hstack =>
          split at hmatched
          · cases hmatched
            exact .inr ⟨output, input, witness_reserved, rfl, rfl, Option.some.inj hstack,
              eq_of_beq (require_eq_ok.mp hrules)⟩
          · cases hmatched
            cases hrules
        · cases hmatched
          cases hrules
      · next hnone =>
        split at hnone
        · split at hnone
          · cases hnone
          · cases hnone
        · cases hnone

theorem vtx_eq_of_no_witness {block other : Block} (hdistinct : Distinguished env block other)
    (hblock : Accepted env block) (hother : Accepted env other)
    (hids : ∀ tx ∈ block.vtx, tx.Identified env.hash256) (hids' : ∀ tx ∈ other.vtx, tx.Identified env.hash256)
    (htxids : block.vtx.map Transaction.txid = other.vtx.map Transaction.txid)
    (hnone : ∀ tx ∈ block.vtx, tx.has_witness = false) (hnone' : ∀ tx ∈ other.vtx, tx.has_witness = false) :
    block.vtx = other.vtx := by
  apply eq_of_map_eq ?_ htxids
  intro tx hmem tx' hmem' htxid
  have hsame := without_witness_eq hdistinct hblock hother hmem hmem' (hids tx hmem) (hids' tx' hmem') htxid
  have hvin : tx.vin = tx'.vin := by
    have hstripped : tx.vin.map TxIn.without_witness = tx'.vin.map TxIn.without_witness := congrArg Transaction.vin hsame
    rwa [map_without_witness (witness_eq_new (hnone tx hmem)),
      map_without_witness (witness_eq_new (hnone' tx' hmem'))] at hstripped
  exact eq_of_witnesses (hids tx hmem) (hids' tx' hmem') hsame (by rw [hvin])

theorem commitment_inj {block other : Block} (hdistinct : Distinguished env block other)
    {coinbase coinbase' : Transaction} {rest rest' : List Transaction} (hvtx : block.vtx = coinbase :: rest)
    (hvtx' : other.vtx = coinbase' :: rest') {input input' : TxIn} (hinput : coinbase.vin.head? = some input)
    (hinput' : coinbase'.vin.head? = some input') {witness_reserved witness_reserved' : List UInt8}
    (hstack : input.witness.stack = [witness_reserved]) (hstack' : input'.witness.stack = [witness_reserved'])
    (hhash : env.hash256 (Uint256.data (block_witness_merkle_root env.hash256 block.vtx).1 ++ witness_reserved) =
      env.hash256 (Uint256.data (block_witness_merkle_root env.hash256 other.vtx).1 ++ witness_reserved')) :
    (block_witness_merkle_root env.hash256 block.vtx).1 = (block_witness_merkle_root env.hash256 other.vtx).1 ∧
      witness_reserved = witness_reserved' := by
  have hmem : Uint256.data (block_witness_merkle_root env.hash256 block.vtx).1 ++ witness_reserved ∈
      hashed_bytes env block :=
    .inr (.inr ⟨coinbase, by simp [hvtx], input, hinput, witness_reserved, by simp [hstack], rfl⟩)
  have hmem' : Uint256.data (block_witness_merkle_root env.hash256 other.vtx).1 ++ witness_reserved' ∈
      hashed_bytes env other :=
    .inr (.inr ⟨coinbase', by simp [hvtx'], input', hinput', witness_reserved', by simp [hstack'], rfl⟩)
  obtain ⟨hroot, hreserved⟩ := List.append_inj (hdistinct.inj (.inl hmem) (.inr hmem') hhash)
    (by rw [length_data, length_data])
  exact ⟨data_inj hroot, hreserved⟩

theorem witness_leaves_eq {block other : Block} (hdistinct : Distinguished env block other)
    (hnonempty : block.vtx ≠ []) (hlength : block.vtx.length = other.vtx.length)
    (hroot : (block_witness_merkle_root env.hash256 block.vtx).1 = (block_witness_merkle_root env.hash256 other.vtx).1) :
    witness_leaves block.vtx = witness_leaves other.vtx := by
  have hleaves_length : ∀ txs, (witness_leaves txs).length = txs.length := by
    intro txs
    cases txs with
    | nil => rfl
    | cons tx rest => simp [witness_leaves]
  have hleaves : witness_leaves block.vtx ≠ [] := by
    intro hnil
    have := hleaves_length block.vtx
    rw [hnil] at this
    exact hnonempty (List.length_eq_zero_iff.mp this.symm)
  refine eq_of_root_of_length hdistinct.collisionFree 0 hleaves ?_ ?_ ?_ hroot
  · exact fun children hmem => .inl (.inr (.inl ⟨children, .inr hmem, rfl⟩))
  · exact fun children hmem => .inr (.inr (.inl ⟨children, .inr hmem, rfl⟩))
  · rw [hleaves_length, hleaves_length, hlength]

theorem map_witness_of_coinbase {coinbase : Transaction} {input : TxIn} {witness_reserved : List UInt8}
    (hcoinbase : coinbase.is_coinbase = true) (hinput : coinbase.vin.head? = some input)
    (hstack : input.witness.stack = [witness_reserved]) : coinbase.vin.map TxIn.witness = [⟨[witness_reserved]⟩] := by
  unfold Transaction.is_coinbase at hcoinbase
  split at hcoinbase
  · next only hvin =>
    rw [hvin] at hinput ⊢
    cases hinput
    rw [List.map_singleton, ← hstack]
  · cases hcoinbase

/-- Two blocks with one header that are both accepted where segwit is active are equal,
    witnesses included, if the hashes of what they consist of do not collide. -/
theorem header_fixes_block {block other : Block} {params : ConsensusParams} {prev_height prev_median_time : Int}
    (hdistinct : Distinguished env block other) (hids : ∀ tx ∈ block.vtx, tx.Identified env.hash256)
    (hids' : ∀ tx ∈ other.vtx, tx.Identified env.hash256) (hheader : block.header = other.header)
    (hactive : params.segwit_height ≤ prev_height + 1) (hblock : check_block env block params true = .ok ())
    (hcontextual : contextual_check_block env block prev_height prev_median_time params = .ok ())
    (hother : check_block env other params true = .ok ())
    (hother_contextual : contextual_check_block env other prev_height prev_median_time params = .ok ()) :
    block = other := by
  have hblock := accepted_of_checks env hactive hblock hcontextual
  have hother := accepted_of_checks env hactive hother hother_contextual
  have htxids := txids_eq hdistinct hblock hother hheader
  obtain ⟨coinbase, rest, hvtx⟩ := List.exists_cons_of_ne_nil hblock.checked.nonempty
  obtain ⟨coinbase', rest', hvtx'⟩ := List.exists_cons_of_ne_nil hother.checked.nonempty
  have hmem : coinbase ∈ block.vtx := by simp [hvtx]
  have hmem' : coinbase' ∈ other.vtx := by simp [hvtx']
  have hcoinbase_txid : coinbase.txid = coinbase'.txid := by
    rw [hvtx, hvtx'] at htxids
    exact (List.cons.inj htxids).1
  have hsame := without_witness_eq hdistinct hblock hother hmem hmem' (hids _ hmem) (hids' _ hmem') hcoinbase_txid
  have hvout : coinbase.vout = coinbase'.vout := by
    have := congrArg Transaction.vout hsame
    exact this
  have houtput : commitment_output coinbase = commitment_output coinbase' := by
    unfold commitment_output
    rw [hvout]
  suffices hvtx_eq : block.vtx = other.vtx by
    cases block
    cases other
    cases hheader
    cases hvtx_eq
    rfl
  obtain ⟨hnone, hwitness⟩ | ⟨output, input, reserved, hsome, hinput, hstack, hcommitment⟩ :=
    check_witness_rules_ok hvtx hblock.witness
  · obtain ⟨_, hwitness'⟩ | ⟨_, _, _, hsome', _⟩ := check_witness_rules_ok hvtx' hother.witness
    · exact vtx_eq_of_no_witness hdistinct hblock hother hids hids' htxids hwitness hwitness'
    · rw [← houtput, hnone] at hsome'
      cases hsome'
  · obtain ⟨hnone', _⟩ | ⟨output', input', reserved', hsome', hinput', hstack', hcommitment'⟩ :=
      check_witness_rules_ok hvtx' hother.witness
    · rw [← houtput, hsome] at hnone'
      cases hnone'
    · rw [← houtput, hsome] at hsome'
      cases hsome'
      have hhash := data_inj (hcommitment.symm.trans hcommitment')
      obtain ⟨hroot, rfl⟩ := commitment_inj hdistinct hvtx hvtx' hinput hinput' hstack hstack' hhash
      have hlength : block.vtx.length = other.vtx.length := by simpa using congrArg List.length htxids
      have hleaves := witness_leaves_eq hdistinct hblock.checked.nonempty hlength hroot
      rw [hvtx, hvtx'] at hleaves
      have hrest : rest = rest' := by
        apply eq_of_map_eq ?_ (List.cons.inj hleaves).2
        intro tx htx tx' htx' hwtxid
        have htx : tx ∈ block.vtx := by simp [hvtx, htx]
        have htx' : tx' ∈ other.vtx := by simp [hvtx', htx']
        exact eq_of_wtxid hdistinct hblock hother htx htx' (hids _ htx) (hids' _ htx') hwtxid
      have hcoinbase : coinbase = coinbase' := by
        apply eq_of_witnesses (hids _ hmem) (hids' _ hmem') hsame
        have hfirst := hblock.checked.coinbase_first.1 coinbase (by simp [hvtx])
        have hfirst' := hother.checked.coinbase_first.1 coinbase' (by simp [hvtx'])
        rw [map_witness_of_coinbase hfirst hinput hstack, map_witness_of_coinbase hfirst' hinput' hstack']
      rw [hvtx, hvtx', hrest, hcoinbase]

def committed_payment : Transaction :=
  .new Env.op_true.hash256 2 [⟨⟨7, 0⟩, .new, SEQUENCE_FINAL, ⟨[[0x01], [0x51]]⟩⟩] [⟨100000, ⟨[0x51]⟩⟩] 0

/-- The root of the witness tree over a coinbase and the payment. -/
def committed_witness_root : Uint256 := hash_pair Env.op_true.hash256 0 committed_payment.wtxid

/-- A coinbase with a reserved value and a commitment to it and to the witness of the payment. -/
def committed_coinbase : Transaction :=
  .new Env.op_true.hash256 1 [⟨.null, ⟨[0x51, 0x01]⟩, SEQUENCE_FINAL, ⟨[List.replicate 32 0]⟩⟩]
    [⟨5000000000, ⟨[0x51]⟩⟩, ⟨0, ⟨[0x6a, 0x24, 0xaa, 0x21, 0xa9, 0xed] ++
      Uint256.data (Env.op_true.hash256 (Uint256.data committed_witness_root ++ List.replicate 32 0))⟩⟩] 0

def committed_block : Block :=
  ⟨⟨4, 0, hash_pair Env.op_true.hash256 committed_coinbase.txid committed_payment.txid, 1296689202, 0x207fffff, 1⟩,
    [committed_coinbase, committed_payment]⟩

/-- What is hashed for the block below its header. -/
def committed_bytes : List (List UInt8) :=
  [serialize_transaction committed_coinbase false, serialize_transaction committed_coinbase true,
    serialize_transaction committed_payment false, serialize_transaction committed_payment true,
    Uint256.data committed_coinbase.txid ++ Uint256.data committed_payment.txid,
    Uint256.data 0 ++ Uint256.data committed_payment.wtxid,
    Uint256.data committed_witness_root ++ List.replicate 32 0]

theorem hashed_bytes_committed_block : ∀ bytes ∈ hashed_bytes .op_true committed_block, bytes ∈ committed_bytes := by
  rintro bytes (⟨tx, hmem, allow_witness, rfl⟩ | ⟨children, hmem | hmem, rfl⟩ |
    ⟨coinbase, hmem, input, hinput, reserved, hreserved, rfl⟩)
  · have hserialized : ∀ tx ∈ committed_block.vtx, ∀ allow_witness : Bool,
        serialize_transaction tx allow_witness ∈ committed_bytes := by
      intro tx hmem allow_witness
      obtain rfl | hmem := List.mem_cons.mp hmem
      · cases allow_witness <;> simp [committed_bytes]
      · obtain rfl := List.mem_singleton.mp hmem
        cases allow_witness <;> simp [committed_bytes]
    exact hserialized tx hmem allow_witness
  · rw [hashed_pairs_two committed_coinbase.txid committed_payment.txid children hmem]
    simp [committed_bytes]
  · rw [hashed_pairs_two 0 committed_payment.wtxid children hmem]
    simp [committed_bytes]
  · cases hmem
    cases hinput
    cases hreserved
    have hroot : (block_witness_merkle_root Env.op_true.hash256 committed_block.vtx).1 = committed_witness_root := by
      decide +kernel
    rw [hroot]
    simp [committed_bytes]

theorem committed_block_distinguished : Distinguished .op_true committed_block committed_block := by
  have hnodup : (committed_bytes.map Env.op_true.hash256).Nodup := by decide +kernel
  have hleaves : ∀ tx ∈ committed_block.vtx,
      hash_pair Env.op_true.hash256 committed_coinbase.txid committed_payment.txid ≠ tx.txid := by decide +kernel
  constructor
  · rw [Set.union_self]
    intro left hleft right hright hhash
    exact List.inj_on_of_nodup_map hnodup (hashed_bytes_committed_block left hleft)
      (hashed_bytes_committed_block right hright) hhash
  · intro tx hmem children hchildren
    rw [Set.union_self] at hchildren
    rw [hashed_pairs_two committed_coinbase.txid committed_payment.txid children hchildren]
    exact hleaves tx ((List.mem_append.mp hmem).elim id id)

theorem header_fixes_committed_block :
    check_block .op_true committed_block .regtest true = .ok () ∧
      contextual_check_block .op_true committed_block 0 0 .regtest = .ok () ∧ committed_block = committed_block := by
  have hcheck : check_block .op_true committed_block .regtest true = .ok () := by decide +kernel
  have hcontextual : contextual_check_block .op_true committed_block 0 0 .regtest = .ok () := by decide +kernel
  have hids : ∀ tx ∈ committed_block.vtx, tx.Identified Env.op_true.hash256 := by
    intro tx hmem
    obtain rfl | hmem := List.mem_cons.mp hmem
    · rfl
    · obtain rfl := List.mem_singleton.mp hmem
      rfl
  exact ⟨hcheck, hcontextual, header_fixes_block committed_block_distinguished hids hids rfl (by decide) hcheck hcontextual
    hcheck hcontextual⟩

end qubitcoin.validation
