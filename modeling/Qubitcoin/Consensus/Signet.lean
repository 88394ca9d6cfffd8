import Qubitcoin.Consensus.Merkle
import Qubitcoin.Consensus.Wire
import Qubitcoin.Script.Parse

/-! `qubitcoin-consensus/signet.rs`: the transactions of a signet solution, and what they depend
    on. -/

open qubitcoin primitives script transaction block merkle serialize

namespace qubitcoin.signet

def SIGNET_HEADER : List UInt8 := [0xec, 0xc7, 0xda, 0xa2]
def WITNESS_COMMITMENT_HEADER : List UInt8 := [0xaa, 0x21, 0xa9, 0xed]

structure SignetTxs where
  to_spend : Transaction
  to_sign : Transaction
  deriving DecidableEq

/-- A script that starts with the commitment of the witness. -/
def is_commitment (script : Script) : Bool :=
  decide (38 ≤ script.data.length) && script.data.getD 0 0 == OP_RETURN && script.data.getD 1 0 == 0x24 &&
    (script.data.drop 2).take 4 == WITNESS_COMMITMENT_HEADER

/-- The last output of the coinbase that has the commitment. -/
def witness_commitment_index (block : Block) : Option Nat := do
  let coinbase ← block.vtx.head?
  (coinbase.vout.zipIdx.reverse.find? fun out => is_commitment out.1.script_pubkey).map Prod.snd

/-- The rebuilt script, whether a solution was found, and the solution. -/
structure Section where
  replacement : Script
  found_header : Bool
  result : List UInt8

/-- A push of a solution: the header and more data. -/
def is_solution (header pushdata : List UInt8) : Bool :=
  decide (header.length < pushdata.length) && pushdata.take header.length == header

/-- Copy one operation; the first solution is cut down to its header. -/
def Section.copy (header : List UInt8) (self : Section) (opcode : UInt8) (pushdata : List UInt8) : Section :=
  if pushdata.isEmpty then { self with replacement := self.replacement.push_opcode opcode }
  else if !self.found_header && is_solution header pushdata then {
    replacement := self.replacement.push_data (pushdata.take header.length)
    found_header := true
    result := self.result ++ pushdata.drop header.length }
  else { self with replacement := self.replacement.push_data pushdata }

/-- The loop of `fetch_and_clear_commitment_section`. -/
def fetch_loop (header : List UInt8) (witness_commitment : Script) : Nat → (pos : Nat) → Section → Section
  | 0, _, state => state
  | fuel + 1, pos, state =>
    match witness_commitment.get_op pos with
    | none => state
    | some (opcode, pushdata, next) => fetch_loop header witness_commitment fuel next (state.copy header opcode pushdata)

/-- Take the solution out of a script. Every operation is at least one byte long, so a fuel of the
    script's length runs the loop to its end. -/
def fetch_and_clear_commitment_section (header : List UInt8) (witness_commitment : Script) : Section :=
  fetch_loop header witness_commitment witness_commitment.len 0 ⟨Script.new, false, []⟩

/-- The script and the witness of a solution. Nothing may follow them. -/
def parse_solution (signet_solution : List UInt8) : Option (Script × Witness) := do
  let (script_sig, rest) ← (decode_script.run signet_solution).toOption
  let (stack_len, rest) ← (read_compact_size.run rest).toOption
  if stack_len > signet_solution.length then none
  else
    let (stack, rest) ← ((codec.decode_items decode_bytes stack_len).run rest).toOption
    if rest.isEmpty then some (script_sig, ⟨stack⟩) else none

/-- Without a solution, both are empty. -/
def Section.decoded (self : Section) : Option (Script × Witness) :=
  if self.found_header then parse_solution self.result else some (Script.new, Witness.new)

section

variable (hash256 : List UInt8 → Uint256)

def compute_modified_merkle_root (cb : Transaction) (block : Block) : Uint256 :=
  (compute_merkle_root (hash_pair hash256) 0 (cb.txid :: (block.vtx.drop 1).map Transaction.txid)).1

def block_data (header : BlockHeader) (signet_merkle : Uint256) : List UInt8 :=
  encode_u32 header.version.toUInt32 ++ Uint256.data header.prev_blockhash ++ Uint256.data signet_merkle ++
    encode_u32 header.time

def to_spend_of (challenge : Script) (data : List UInt8) : Transaction :=
  .new hash256 0 [⟨OutPoint.null, (Script.new.push_opcode OP_0).push_data data, 0, Witness.new⟩] [⟨0, challenge⟩] 0

def to_sign_of (to_spend : Transaction) (script_sig : Script) (witness : Witness) : Transaction :=
  .new hash256 0 [⟨⟨to_spend.txid, 0⟩, script_sig, 0, witness⟩] [⟨0, Script.new.push_opcode OP_RETURN⟩] 0

def SignetTxs.create (block : Block) (challenge : Script) : Option SignetTxs := do
  let coinbase ← block.vtx.head?
  let cidx ← witness_commitment_index block
  let output ← coinbase.vout[cidx]?
  let fetched := fetch_and_clear_commitment_section SIGNET_HEADER output.script_pubkey
  let (script_sig, witness) ← fetched.decoded
  let modified_vout :=
    if fetched.found_header then coinbase.vout.set cidx { output with script_pubkey := fetched.replacement }
    else coinbase.vout
  let modified_cb := Transaction.new hash256 coinbase.version coinbase.vin modified_vout coinbase.lock_time
  let signet_merkle := compute_modified_merkle_root hash256 modified_cb block
  let to_spend := to_spend_of hash256 challenge (block_data block.header signet_merkle)
  some ⟨to_spend, to_sign_of hash256 to_spend script_sig witness⟩

end

def copied (op : ScriptOp) : List UInt8 := if op.data.isEmpty then [op.opcode] else (Script.new.push_data op.data).data

theorem push_data_eq (self : Script) (data : List UInt8) :
    self.push_data data = ⟨self.data ++ (Script.new.push_data data).data⟩ := by
  have hnew : Script.new.data = [] := rfl
  unfold Script.push_data
  rw [hnew]
  dsimp only
  split
  · rfl
  · split
    · rw [List.nil_append, List.append_assoc]
    · split
      · rw [List.nil_append, List.append_assoc]
      · split
        · rw [List.nil_append, List.append_assoc, List.append_assoc, List.append_assoc]
        · rw [List.nil_append, List.append_assoc, List.append_assoc, List.append_assoc]

theorem fetch_loop_eq (header : List UInt8) (script : Script) (fuel pos : Nat) (state : Section) :
    fetch_loop header script fuel pos state =
      (script.ops_from fuel pos).1.foldl (fun state op => state.copy header op.opcode op.data) state := by
  induction fuel generalizing pos state with
  | zero => rfl
  | succ fuel ih =>
    rw [fetch_loop, Script.ops_from]
    cases script.get_op pos with
    | none => rfl
    | some result => exact ih _ _

theorem copy_plain {header : List UInt8} {state : Section} {op : ScriptOp}
    (hplain : state.found_header = true ∨ is_solution header op.data = false) :
    state.copy header op.opcode op.data = { state with replacement := ⟨state.replacement.data ++ copied op⟩ } := by
  unfold Section.copy copied
  split
  · rfl
  · have hguard : (!state.found_header && is_solution header op.data) = false := by
      rcases hplain with hfound | hnot
      · rw [hfound]
        rfl
      · rw [hnot, Bool.and_false]
    rw [hguard, if_neg Bool.false_ne_true, push_data_eq]

theorem foldl_copy_plain {header : List UInt8} (ops : List ScriptOp) (state : Section)
    (hplain : state.found_header = true ∨ ∀ op ∈ ops, is_solution header op.data = false) :
    ops.foldl (fun state op => state.copy header op.opcode op.data) state =
      { state with replacement := ⟨state.replacement.data ++ ops.flatMap copied⟩ } := by
  induction ops generalizing state with
  | nil => rw [List.foldl_nil, List.flatMap_nil, List.append_nil]
  | cons op ops ih =>
    have hop : state.found_header = true ∨ is_solution header op.data = false :=
      hplain.imp_right fun hall => hall op List.mem_cons_self
    have hrest := ih { state with replacement := ⟨state.replacement.data ++ copied op⟩ }
      (hplain.imp_right fun hall other hmem => hall other (List.mem_cons_of_mem op hmem))
    rw [List.foldl_cons, copy_plain hop, hrest, List.flatMap_cons, List.append_assoc]

theorem copy_solution {header solution : List UInt8} (opcode : UInt8) (hne : solution ≠ []) (replacement : Script) :
    (Section.mk replacement false []).copy header opcode (header ++ solution) =
      ⟨⟨replacement.data ++ (Script.new.push_data header).data⟩, true, solution⟩ := by
  have hpositive := List.length_pos_iff.mpr hne
  have hnonempty : (header ++ solution).isEmpty = false :=
    List.isEmpty_eq_false_iff.mpr (List.append_ne_nil_of_right_ne_nil header hne)
  have hsolution : is_solution header (header ++ solution) = true := by
    unfold is_solution
    rw [List.take_left' rfl, List.length_append, decide_eq_true (by omega), BEq.rfl, Bool.and_true]
  unfold Section.copy
  rw [hnonempty, if_neg Bool.false_ne_true, hsolution]
  dsimp only
  rw [if_pos (by decide), List.take_left' rfl, List.drop_left' rfl, push_data_eq, List.nil_append]

/-- A commitment script with a solution: complete operations none of which is a solution, a push of
    the header and of the solution in any encoding, and what stands after it. -/
structure Carries (script : Script) (front : List ScriptOp) (solution back : List UInt8) : Prop where
  encodes : ∀ op ∈ front, Encodes op.opcode op.data op.bytes
  first : ∀ op ∈ front, is_solution SIGNET_HEADER op.data = false
  nonempty : solution ≠ []
  script : ∃ opcode bytes, Encodes opcode (SIGNET_HEADER ++ solution) bytes ∧
    script.data = front.flatMap ScriptOp.bytes ++ (bytes ++ back)

/-- The commitment script without its solution. -/
def cleared (front : List ScriptOp) (back : List UInt8) : Script :=
  ⟨front.flatMap copied ++ (Script.new.push_data SIGNET_HEADER).data ++ (Script.mk back).ops.1.flatMap copied⟩

variable {script : Script} {front : List ScriptOp} {solution back : List UInt8}

theorem Carries.ops (hcarries : Carries script front solution back) : ∃ opcode bytes,
    script.ops.1 = front ++ ⟨opcode, SIGNET_HEADER ++ solution, bytes⟩ :: (Script.mk back).ops.1 := by
  obtain ⟨opcode, bytes, hencodes, hdata⟩ := hcarries.script
  have hscript : script = ⟨front.flatMap ScriptOp.bytes ++ (bytes ++ back)⟩ := congrArg Script.mk hdata
  have hpush := @Script.ops_cons ⟨opcode, SIGNET_HEADER ++ solution, bytes⟩ hencodes back
  refine ⟨opcode, bytes, ?_⟩
  rw [hscript, Script.ops_append hcarries.encodes, hpush]

theorem Carries.fetched (hcarries : Carries script front solution back) :
    fetch_and_clear_commitment_section SIGNET_HEADER script = ⟨cleared front back, true, solution⟩ := by
  obtain ⟨opcode, bytes, hops⟩ := hcarries.ops
  have hloop := fetch_loop_eq SIGNET_HEADER script script.len 0 ⟨Script.new, false, []⟩
  have hall : (script.ops_from script.len 0).1 = script.ops.1 := rfl
  rw [fetch_and_clear_commitment_section, hloop, hall, hops, List.foldl_append,
    foldl_copy_plain front _ (.inr hcarries.first), List.foldl_cons, copy_solution opcode hcarries.nonempty,
    foldl_copy_plain _ _ (.inl rfl)]
  rfl

theorem is_commitment_append {front : List UInt8} (hlength : 38 ≤ front.length) (rest : List UInt8) :
    is_commitment ⟨front ++ rest⟩ = is_commitment ⟨front⟩ := by
  have htake : ((front ++ rest).drop 2).take 4 = (front.drop 2).take 4 := by
    rw [List.drop_append_of_le_length (by omega), List.take_append_of_le_length (by rw [List.length_drop]; omega)]
  have hget : ∀ pos < 38, (front ++ rest).getD pos 0 = front.getD pos 0 := by
    intro pos hpos
    rw [List.getD_eq_getElem?_getD, List.getElem?_append_left (by omega), List.getD_eq_getElem?_getD]
  unfold is_commitment
  dsimp only
  rw [htake, hget 0 (by omega), hget 1 (by omega), List.length_append, decide_eq_true (by omega),
    decide_eq_true (by omega)]

theorem is_commitment_ops (hcommitment : is_commitment script = true) : ∃ data bytes rest,
    script.ops.1 = ⟨OP_RETURN, [], [OP_RETURN]⟩ :: ⟨0x24, data, bytes⟩ :: rest ∧ data.take 4 = WITNESS_COMMITMENT_HEADER ∧
      bytes.length = 37 := by
  unfold is_commitment at hcommitment
  simp only [Bool.and_eq_true, decide_eq_true_eq, beq_iff_eq] at hcommitment
  obtain ⟨⟨⟨hlength, hfirst⟩, hsecond⟩, hheader⟩ := hcommitment
  obtain ⟨data⟩ := script
  match data, hlength, hfirst, hsecond, hheader with
  | first :: second :: rest, hlength, hfirst, hsecond, hheader =>
    have hfirst : first = OP_RETURN := hfirst
    have hsecond : second = 0x24 := hsecond
    subst hfirst hsecond
    have hrest : 36 ≤ rest.length := by
      dsimp only at hlength
      rw [List.length_cons, List.length_cons] at hlength
      omega
    have hdata : (rest.take 36).length = 36 := List.length_take_of_le hrest
    have hpush : Encodes (UInt8.ofNat (rest.take 36).length) (rest.take 36)
        (UInt8.ofNat (rest.take 36).length :: rest.take 36) := .direct (by omega)
    rw [hdata] at hpush
    have hsplit : OP_RETURN :: 0x24 :: rest = [OP_RETURN] ++ ((0x24 :: rest.take 36) ++ rest.drop 36) := by
      rw [List.singleton_append, List.cons_append, List.take_append_drop]
    have hreturn := @Script.ops_cons ⟨OP_RETURN, [], [OP_RETURN]⟩ (.code (by decide))
      ((0x24 :: rest.take 36) ++ rest.drop 36)
    have hcommit := @Script.ops_cons ⟨0x24, rest.take 36, 0x24 :: rest.take 36⟩ hpush (rest.drop 36)
    refine ⟨rest.take 36, 0x24 :: rest.take 36, (Script.mk (rest.drop 36)).ops.1, ?_, ?_, ?_⟩
    · rw [hsplit, hreturn, hcommit]
    · rw [List.take_take]
      exact hheader
    · rw [List.length_cons, hdata]

theorem Carries.commitment_length (hcarries : Carries script front solution back)
    (hcommitment : is_commitment script = true) : 38 ≤ (front.flatMap ScriptOp.bytes).length := by
  obtain ⟨data, bytes, rest, hops, hheader, hlength⟩ := is_commitment_ops hcommitment
  obtain ⟨opcode, push, hcarried⟩ := hcarries.ops
  rw [hops] at hcarried
  cases front with
  | nil => cases hcarried
  | cons first front =>
    obtain ⟨hfirst, hcarried⟩ := List.cons.inj hcarried
    cases front with
    | nil =>
      obtain ⟨hsecond, -⟩ := List.cons.inj hcarried
      cases hsecond
      cases hheader
    | cons second front =>
      obtain ⟨hsecond, -⟩ := List.cons.inj hcarried
      rw [← hfirst, ← hsecond, List.flatMap_cons, List.flatMap_cons, List.length_append, List.length_append, hlength]
      rw [List.length_singleton]
      omega

theorem Carries.is_commitment_eq {other : Script} {other_solution other_back : List UInt8}
    (hcarries : Carries script front solution back) (hother : Carries other front other_solution other_back)
    (hcommitment : is_commitment script = true) : is_commitment other = true := by
  have hlength := hcarries.commitment_length hcommitment
  obtain ⟨-, bytes, -, hdata⟩ := hcarries.script
  obtain ⟨-, other_bytes, -, hother_data⟩ := hother.script
  obtain ⟨data⟩ := script
  obtain ⟨other_data⟩ := other
  dsimp only at hdata hother_data
  rw [hdata, is_commitment_append hlength] at hcommitment
  rw [hother_data, is_commitment_append hlength, hcommitment]

theorem witness_commitment_index_congr {block other : Block} {coinbase cb : Transaction}
    (hblock : block.vtx.head? = some coinbase) (hother : other.vtx.head? = some cb)
    (hsame : coinbase.vout.map (fun out => is_commitment out.script_pubkey) =
      cb.vout.map fun out => is_commitment out.script_pubkey) :
    witness_commitment_index block = witness_commitment_index other := by
  have hindex : ∀ vout : List TxOut,
      (vout.zipIdx.reverse.find? fun out => is_commitment out.1.script_pubkey).map Prod.snd =
        (((vout.map fun out => is_commitment out.script_pubkey).zipIdx.reverse.find? fun found => found.1).map
          Prod.snd : Option Nat) := by
    intro vout
    rw [List.zipIdx_map, ← List.map_reverse, List.find?_map, Option.map_map]
    rfl
  unfold witness_commitment_index
  rw [hblock, hother]
  dsimp only [bind, Option.bind]
  rw [hindex, hindex, hsame]

theorem is_commitment_of_index {block : Block} {coinbase : Transaction} {cidx : Nat} {output : TxOut}
    (hblock : block.vtx.head? = some coinbase) (hindex : witness_commitment_index block = some cidx)
    (houtput : coinbase.vout[cidx]? = some output) : is_commitment output.script_pubkey = true := by
  unfold witness_commitment_index at hindex
  rw [hblock] at hindex
  obtain ⟨⟨found, index⟩, hfind, rfl⟩ := Option.map_eq_some_iff.mp hindex
  have hmem := List.mem_zipIdx_iff_getElem?.mp (List.mem_reverse.mp (List.mem_of_find?_eq_some hfind))
  dsimp only at hmem houtput
  rw [hmem] at houtput
  cases houtput
  exact List.find?_some (p := fun out : TxOut × Nat => is_commitment out.1.script_pubkey) hfind

/-- What the blocks share that differ in their solution, and in the merkle root, the nonce and the
    bits of their headers: the rest of the header, of the coinbase and of its commitment output, and
    the other transactions. -/
structure Frame where
  version : Int32
  prev_blockhash : BlockHash
  time : UInt32
  cb_version : UInt32
  vin : List TxIn
  before : List TxOut
  value : Amount
  front : List ScriptOp
  back : List UInt8
  after : List TxOut
  lock_time : UInt32
  rest : List Transaction

/-- The block has the parts of the frame, and carries a solution in an output. -/
structure Frame.Holds (frame : Frame) (block : Block) (solution : List UInt8) : Prop where
  version : block.header.version = frame.version
  prev_blockhash : block.header.prev_blockhash = frame.prev_blockhash
  time : block.header.time = frame.time
  vtx : ∃ coinbase script, block.vtx = coinbase :: frame.rest ∧ coinbase.version = frame.cb_version ∧
    coinbase.vin = frame.vin ∧ coinbase.lock_time = frame.lock_time ∧
    coinbase.vout = frame.before ++ ⟨frame.value, script⟩ :: frame.after ∧ Carries script frame.front solution frame.back

variable {hash256 : List UInt8 → Uint256} {frame : Frame} {block other : Block} {other_solution : List UInt8}

/-- The coinbase of the frame without a solution. -/
def Frame.modified_cb (self : Frame) (hash256 : List UInt8 → Uint256) : Transaction :=
  .new hash256 self.cb_version self.vin (self.before ++ ⟨self.value, cleared self.front self.back⟩ :: self.after)
    self.lock_time

def Frame.merkle_root (self : Frame) (hash256 : List UInt8 → Uint256) : Uint256 :=
  (compute_merkle_root (hash_pair hash256) 0 ((self.modified_cb hash256).txid :: self.rest.map Transaction.txid)).1

def Frame.to_spend (self : Frame) (hash256 : List UInt8 → Uint256) (challenge : Script) : Transaction :=
  to_spend_of hash256 challenge (encode_u32 self.version.toUInt32 ++ Uint256.data self.prev_blockhash ++
    Uint256.data (self.merkle_root hash256) ++ encode_u32 self.time)

theorem Frame.Holds.create_eq (hholds : frame.Holds block solution)
    (hindex : witness_commitment_index block = some frame.before.length) (challenge : Script) :
    SignetTxs.create hash256 block challenge = (parse_solution solution).map fun decoded =>
      ⟨frame.to_spend hash256 challenge, to_sign_of hash256 (frame.to_spend hash256 challenge) decoded.1 decoded.2⟩ := by
  obtain ⟨coinbase, script, hvtx, hversion, hvin, hlock_time, hvout, hcarries⟩ := hholds.vtx
  have houtput : coinbase.vout[frame.before.length]? = some ⟨frame.value, script⟩ := by
    rw [hvout, List.getElem?_append_right (Nat.le_refl _), Nat.sub_self]
    rfl
  have hset : coinbase.vout.set frame.before.length ⟨frame.value, cleared frame.front frame.back⟩ =
      frame.before ++ ⟨frame.value, cleared frame.front frame.back⟩ :: frame.after := by
    rw [hvout, List.set_append_right _ _ (Nat.le_refl _), Nat.sub_self]
    rfl
  have hspend : to_spend_of hash256 challenge (block_data block.header (compute_modified_merkle_root hash256
      (.new hash256 frame.cb_version frame.vin
        (frame.before ++ ⟨frame.value, cleared frame.front frame.back⟩ :: frame.after) frame.lock_time) block)) =
        frame.to_spend hash256 challenge := by
    unfold Frame.to_spend Frame.merkle_root block_data compute_modified_merkle_root
    rw [hholds.version, hholds.prev_blockhash, hholds.time, hvtx, List.drop_one, List.tail_cons, Frame.modified_cb]
  unfold SignetTxs.create
  simp only [hvtx, List.head?_cons, hindex, houtput, hcarries.fetched, Option.bind_eq_bind, Option.bind_some]
  rw [Section.decoded, if_pos rfl, if_pos trivial, hset, hversion, hvin, hlock_time]
  rw [hspend]
  cases parse_solution solution <;> rfl

theorem Frame.Holds.index_eq (hholds : frame.Holds block solution) (hother : frame.Holds other other_solution)
    (hindex : witness_commitment_index block = some frame.before.length) :
    witness_commitment_index other = some frame.before.length := by
  obtain ⟨coinbase, script, hvtx, -, -, -, hvout, hcarries⟩ := hholds.vtx
  obtain ⟨cb, other_script, hother_vtx, -, -, -, hother_vout, hother_carries⟩ := hother.vtx
  have hhead : block.vtx.head? = some coinbase := by rw [hvtx, List.head?_cons]
  have hother_head : other.vtx.head? = some cb := by rw [hother_vtx, List.head?_cons]
  have houtput : coinbase.vout[frame.before.length]? = some ⟨frame.value, script⟩ := by
    rw [hvout, List.getElem?_append_right (Nat.le_refl _), Nat.sub_self]
    rfl
  have hcommitment : is_commitment script = true := is_commitment_of_index hhead hindex houtput
  have hother_commitment := hcarries.is_commitment_eq hother_carries hcommitment
  rw [← hindex]
  refine (witness_commitment_index_congr hhead hother_head ?_).symm
  rw [hvout, hother_vout, List.map_append, List.map_append, List.map_cons, List.map_cons, hcommitment, hother_commitment]

/-- What is signed does not depend on the solution: two blocks that differ in it have the same
    transaction to spend, and transactions to sign with what the solutions decode to. Whether there
    are such transactions depends only on whether the solution decodes. -/
theorem signet_txs_independent (hash256 : List UInt8 → Uint256) (challenge : Script)
    (hblock : frame.Holds block solution) (hother : frame.Holds other other_solution)
    (hindex : witness_commitment_index block = some frame.before.length) :
    (∀ txs other_txs, SignetTxs.create hash256 block challenge = some txs →
      SignetTxs.create hash256 other challenge = some other_txs →
        other_txs.to_spend = txs.to_spend ∧ ∃ decoded other_decoded, parse_solution solution = some decoded ∧
          parse_solution other_solution = some other_decoded ∧
          txs.to_sign = to_sign_of hash256 txs.to_spend decoded.1 decoded.2 ∧
          other_txs.to_sign = to_sign_of hash256 txs.to_spend other_decoded.1 other_decoded.2) ∧
      ((SignetTxs.create hash256 block challenge).isSome ↔ (parse_solution solution).isSome) ∧
      ((SignetTxs.create hash256 other challenge).isSome ↔ (parse_solution other_solution).isSome) := by
  have hcreate := @Frame.Holds.create_eq _ hash256 _ _ hblock hindex challenge
  have hother_create := @Frame.Holds.create_eq _ hash256 _ _ hother (hblock.index_eq hother hindex) challenge
  rw [hcreate, hother_create]
  refine ⟨?_, by rw [Option.isSome_map], by rw [Option.isSome_map]⟩
  intro txs other_txs htxs hother_txs
  obtain ⟨decoded, hdecoded, rfl⟩ := Option.map_eq_some_iff.mp htxs
  obtain ⟨other_decoded, hother_decoded, rfl⟩ := Option.map_eq_some_iff.mp hother_txs
  exact ⟨rfl, decoded, other_decoded, hdecoded, hother_decoded, rfl, rfl⟩

def push_op (data : List UInt8) : ScriptOp := ⟨UInt8.ofNat data.length, data, UInt8.ofNat data.length :: data⟩

/-- A coinbase with nothing but a commitment. -/
def signet_frame : Frame where
  version := 0x20000000
  prev_blockhash := 1
  time := 1600000000
  cb_version := 2
  vin := [⟨OutPoint.null, ⟨[0x51]⟩, SEQUENCE_FINAL, Witness.new⟩]
  before := []
  value := 0
  front := [⟨OP_RETURN, [], [OP_RETURN]⟩, push_op (WITNESS_COMMITMENT_HEADER ++ List.replicate 32 0)]
  back := []
  after := []
  lock_time := 0
  rest := []

/-- The block of the frame with a short solution. -/
def signet_block (solution : List UInt8) (nonce : UInt32) : Block where
  header := ⟨signet_frame.version, signet_frame.prev_blockhash, 0, signet_frame.time, 0x1e0377ae, nonce⟩
  vtx := [{
    version := signet_frame.cb_version
    vin := signet_frame.vin
    vout := [⟨0, ⟨signet_frame.front.flatMap ScriptOp.bytes ++ (push_op (SIGNET_HEADER ++ solution)).bytes⟩⟩]
    lock_time := signet_frame.lock_time
    hash := 0
    witness_hash := 0 }]

theorem signet_block_holds {solution : List UInt8} (hne : solution ≠ []) (hshort : solution.length ≤ 71) (nonce : UInt32) :
    signet_frame.Holds (signet_block solution nonce) solution := by
  have hlength : (SIGNET_HEADER ++ solution).length ≤ 75 := by
    have hheader : SIGNET_HEADER.length = 4 := rfl
    rw [List.length_append]
    omega
  refine ⟨rfl, rfl, rfl, _, _, rfl, rfl, rfl, rfl, rfl, ⟨?_, by decide, hne, _, _, .direct hlength, ?_⟩⟩
  · intro op hmem
    rcases List.mem_cons.mp hmem with rfl | hmem
    · exact .code (by decide)
    · obtain rfl := List.mem_singleton.mp hmem
      exact .direct (by decide)
  · rw [show signet_frame.back = [] from rfl, List.append_nil]
    rfl

/-- An empty solution, and one of a script and a witness. -/
theorem signet_txs_independent_two : ∃ txs other_txs,
    SignetTxs.create crypto.sha256d (signet_block [0, 0] 7) ⟨[0x51]⟩ = some txs ∧
      SignetTxs.create crypto.sha256d (signet_block [1, 0x51, 1, 1, 9] 8) ⟨[0x51]⟩ = some other_txs ∧
      other_txs.to_spend = txs.to_spend := by
  obtain ⟨hsame, hfirst, hsecond⟩ := signet_txs_independent crypto.sha256d ⟨[0x51]⟩
    (@signet_block_holds [0, 0] (by decide) (by decide) 7)
    (@signet_block_holds [1, 0x51, 1, 1, 9] (by decide) (by decide) 8) (by decide)
  obtain ⟨txs, htxs⟩ := Option.isSome_iff_exists.mp (hfirst.mpr (by decide))
  obtain ⟨other_txs, hother⟩ := Option.isSome_iff_exists.mp (hsecond.mpr (by decide))
  exact ⟨txs, other_txs, htxs, hother, (hsame txs other_txs htxs hother).1⟩

end qubitcoin.signet
