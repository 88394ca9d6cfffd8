import Qubitcoin.Script.Verify

/-! The runs of the scripts that wallets pay to. -/

open qubitcoin script transaction

namespace qubitcoin.script

def build_p2sh (script_hash : List UInt8) : Script :=
  ((Script.new.push_opcode OP_HASH160).push_data script_hash).push_opcode OP_EQUAL

def build_p2tr (output_key : List UInt8) : Script := (Script.new.push_opcode OP_1).push_data output_key

def Script.is_p2pkh (self : Script) : Bool :=
  self.data.length == 25 && self.data.getD 0 0 == OP_DUP && self.data.getD 1 0 == OP_HASH160 &&
    self.data.getD 2 0 == 0x14 && self.data.getD 23 0 == OP_EQUALVERIFY && self.data.getD 24 0 == OP_CHECKSIG

variable {script : Script} {pos : Nat} {data rest : List UInt8}

theorem get_op_push (hlow : data.length ≤ 75) (hdrop : script.data.drop pos = UInt8.ofNat data.length :: (data ++ rest)) :
    script.get_op pos = some (UInt8.ofNat data.length, data, pos + 1 + data.length) := by
  have hvalue : (UInt8.ofNat data.length).toNat = data.length := UInt8.toNat_ofNat_of_lt' (Nat.lt_of_le_of_lt hlow (by decide))
  have hdirect : UInt8.ofNat data.length ≤ 0x4b := by
    rw [UInt8.le_iff_toNat_le, hvalue]
    exact hlow
  rw [Script.get_op, hdrop]
  dsimp only
  rw [if_pos hdirect, hvalue, if_neg (by rw [List.length_append]; omega), List.take_left' rfl]

theorem get_op_opcode {opcode : UInt8} (hopcode : OP_PUSHDATA4 < opcode) (hdrop : script.data.drop pos = opcode :: rest) :
    script.get_op pos = some (opcode, [], pos + 1) := by
  have hopcode := UInt8.lt_iff_toNat_lt.mp hopcode
  have hconst : OP_PUSHDATA4.toNat = 78 := rfl
  have hdirect : ¬ opcode ≤ 0x4b := fun hle => by
    have hle : opcode.toNat ≤ 75 := UInt8.le_iff_toNat_le.mp hle
    omega
  have hne : ∀ other : UInt8, other.toNat ≤ 78 → opcode ≠ other := fun other hle heq => by
    rw [heq] at hopcode
    omega
  rw [Script.get_op, hdrop]
  dsimp only
  rw [if_neg hdirect, if_neg (hne _ (by decide)), if_neg (hne _ (by decide)), if_neg (hne _ (by decide))]

theorem push_data_data (hlow : 1 ≤ data.length) (hhigh : data.length ≤ 75) (self : Script) :
    (self.push_data data).data = self.data ++ UInt8.ofNat data.length :: data := by
  rw [Script.push_data, if_neg (by omega), if_pos hhigh]
  simp only [List.append_assoc, List.cons_append, List.nil_append]

theorem build_p2sh_data {hash : List UInt8} (hlength : hash.length = 20) :
    (build_p2sh hash).data = OP_HASH160 :: 0x14 :: (hash ++ [OP_EQUAL]) := by
  unfold build_p2sh Script.push_opcode
  rw [push_data_data (by omega) (by omega), hlength]
  rfl

theorem len_build_p2sh {hash : List UInt8} (hlength : hash.length = 20) : (build_p2sh hash).data.length = 23 := by
  rw [build_p2sh_data hlength]
  simp only [List.length_cons, List.length_append, hlength, List.length_nil]

theorem program_data {version : UInt8} {program : List UInt8} (hlow : 1 ≤ program.length) (hhigh : program.length ≤ 75) :
    ((Script.mk [version]).push_data program).data = version :: UInt8.ofNat program.length :: program :=
  push_data_data hlow hhigh _

theorem len_program {version : UInt8} {program : List UInt8} (hlow : 1 ≤ program.length) (hhigh : program.length ≤ 75) :
    ((Script.mk [version]).push_data program).data.length = program.length + 2 := by
  rw [program_data hlow hhigh, List.length_cons, List.length_cons]

theorem len_build_p2wpkh {program : List UInt8} (hlength : program.length = 20) :
    (build_p2wpkh program).data.length = 22 := by
  have hlen := @len_program OP_0 program (by omega) (by omega)
  rw [hlength] at hlen
  exact hlen

theorem len_build_p2tr {program : List UInt8} (hlength : program.length = 32) : (build_p2tr program).data.length = 34 := by
  have hlen := @len_program OP_1 program (by omega) (by omega)
  rw [hlength] at hlen
  exact hlen

theorem is_p2pkh_eq_false (hlength : script.data.length ≠ 25) : script.is_p2pkh = false := by
  rw [Script.is_p2pkh, beq_false_of_ne hlength]
  rfl

end qubitcoin.script

namespace qubitcoin.interpreter.vm

section

variable (crypto : Crypto) (checker : SignatureChecker) (flags : UInt32) (sigversion : SigVersion) (script : Script)

/-- A number of passes of the loop. -/
inductive Passes : Nat → State → State → Prop where
  | refl (state : State) : Passes 0 state state
  | step {count : Nat} {state next final : State} (hpc : state.pc < script.len)
    (hstep : vm.step crypto checker flags sigversion script state = .ok next) (hrest : Passes count next final) :
    Passes (count + 1) state final

end

variable {crypto : Crypto} {checker : SignatureChecker} {flags : UInt32} {sigversion : SigVersion} {script : Script}
variable {state : State}

theorem Passes.eval_loop {count : Nat} {final : State}
    (hpasses : Passes crypto checker flags sigversion script count state final) (fuel : Nat) :
    vm.eval_loop crypto checker flags sigversion script (count + fuel) state =
      vm.eval_loop crypto checker flags sigversion script fuel final := by
  induction hpasses with
  | refl => rw [Nat.zero_add]
  | step hpc hstep _ ih =>
    rw [Nat.add_right_comm, vm.eval_loop, if_pos hpc, hstep]
    exact ih

theorem Passes.eval_script {count : Nat} {stack : Stack} {exec_data : ScriptExecutionData} {final : State}
    (hversion : sigversion ≠ .Taproot) (hlength : script.len ≤ MAX_SCRIPT_SIZE) (hcount : count ≤ script.len)
    (hend : script.len ≤ final.pc) (hclosed : final.vf_exec.empty = true)
    (hpasses : Passes crypto checker flags sigversion script count (.start stack exec_data) final) :
    vm.eval_script crypto checker flags sigversion script stack exec_data = .ok (final.stack, final.exec_data) := by
  have hsize : (!(sigversion.before_taproot && decide (MAX_SCRIPT_SIZE < script.len))) = true := by
    rw [decide_eq_false (by omega), Bool.and_false, Bool.not_false]
  have hloop : vm.eval_loop crypto checker flags sigversion script script.len (.start stack exec_data) = .ok final := by
    obtain ⟨fuel, hfuel⟩ := Nat.exists_eq_add_of_le hcount
    rw [hfuel, hpasses.eval_loop]
    cases fuel with
    | zero => rw [vm.eval_loop, if_neg (by omega)]; rfl
    | succ fuel => rw [vm.eval_loop, if_neg (by omega)]; rfl
  rw [vm.eval_script, if_neg hversion, hsize, hloop]
  change (ensure final.vf_exec.empty _ >>= _) = _
  rw [hclosed]
  rfl

/-- A state of a run without branches and alternative stack. -/
def straight (exec_data : ScriptExecutionData) (pc op_count opcode_pos : Nat) (stack : Stack) : State :=
  { State.start stack exec_data with pc, op_count, opcode_pos }

variable {exec_data : ScriptExecutionData} {pc op_count opcode_pos : Nat} {stack : Stack}

theorem step_push {data rest : List UInt8} (hdrop : script.data.drop pc = UInt8.ofNat data.length :: (data ++ rest))
    (hlength : data.length ≤ 75) (hminimal : check_minimal_push data (UInt8.ofNat data.length) = true)
    (hroom : stack.length < MAX_STACK_SIZE) (hpos : opcode_pos + 1 < 2 ^ 32) :
    step crypto checker flags sigversion script (straight exec_data pc op_count opcode_pos stack) =
      .ok (straight exec_data (pc + 1 + data.length) op_count (opcode_pos + 1) (data :: stack)) := by
  have hvalue : (UInt8.ofNat data.length).toNat = data.length :=
    UInt8.toNat_ofNat_of_lt' (Nat.lt_of_le_of_lt hlength (by decide))
  have hget := get_op_push hlength hdrop
  generalize UInt8.ofNat data.length = opcode at hvalue hget hminimal
  have hpush : opcode ≤ OP_PUSHDATA4 := UInt8.le_iff_toNat_le.mpr (by rw [hvalue]; exact hlength.trans (by decide))
  have hcount : ¬ (sigversion.before_taproot = true ∧ OP_16 < opcode) := fun hcount => by
    have hlow := UInt8.lt_iff_toNat_lt.mp hcount.2
    have hconst : OP_16.toNat = 96 := rfl
    omega
  have hdisabled : is_disabled_opcode opcode = false := by
    unfold is_disabled_opcode
    simp only [Bool.or_eq_false_iff, decide_eq_false_iff_not, beq_eq_false_iff_ne, UInt8.le_iff_toNat_le, ne_eq,
      ← UInt8.toNat_inj, UInt8.reduceToNat]
    omega
  have hseparator : (opcode == OP_CODESEPARATOR) = false := by
    rw [beq_eq_false_iff_ne, ne_eq, ← UInt8.toNat_inj]
    have hconst : OP_CODESEPARATOR.toNat = 171 := rfl
    omega
  have hsize : data.length ≤ MAX_SCRIPT_ELEMENT_SIZE := hlength.trans (by decide)
  rw [step, show (straight exec_data pc op_count opcode_pos stack).pc = pc from rfl, hget]
  dsimp only
  rw [decide_eq_true hsize, count_op, if_neg hcount, hdisabled, hseparator]
  change (perform crypto checker flags sigversion script opcode data _ >>= _) = _
  rw [perform, if_pos ⟨rfl, hpush⟩, hminimal, Bool.not_true, Bool.and_false]
  change (ensure (decide (stack.length + 1 ≤ MAX_STACK_SIZE)) _ >>= _) = _
  rw [decide_eq_true (Nat.succ_le_of_lt hroom)]
  change (add_u32 opcode_pos 1 >>= _) = _
  rw [add_u32, if_pos hpos]
  rfl

theorem step_op {opcode : UInt8} {rest : List UInt8} {after : Stack} (hdrop : script.data.drop pc = opcode :: rest)
    (hhigh : OP_16 < opcode) (hallowed : is_disabled_opcode opcode = false) (hseparator : opcode ≠ OP_CODESEPARATOR)
    (hversion : sigversion.before_taproot = true) (hcount : op_count < MAX_OPS_PER_SCRIPT)
    (hrun : (Operation.from_u8 opcode).run crypto checker flags sigversion script true
      (straight exec_data (pc + 1) (op_count + 1) opcode_pos stack) =
        .ok (straight exec_data (pc + 1) (op_count + 1) opcode_pos after))
    (hroom : after.length ≤ MAX_STACK_SIZE) (hpos : opcode_pos + 1 < 2 ^ 32) :
    step crypto checker flags sigversion script (straight exec_data pc op_count opcode_pos stack) =
      .ok (straight exec_data (pc + 1) (op_count + 1) (opcode_pos + 1) after) := by
  have hlow := UInt8.lt_iff_toNat_lt.mp hhigh
  have h₁ : OP_PUSHDATA4.toNat = 78 := rfl
  have h₂ : OP_16.toNat = 96 := rfl
  have hpush : OP_PUSHDATA4 < opcode := UInt8.lt_iff_toNat_lt.mpr (by omega)
  have hcounted : MAX_OPS_PER_SCRIPT = 201 := rfl
  rw [step, show (straight exec_data pc op_count opcode_pos stack).pc = pc from rfl, get_op_opcode hpush hdrop]
  dsimp only
  rw [count_op, if_pos ⟨hversion, hhigh⟩]
  dsimp only
  rw [show (straight exec_data pc op_count opcode_pos stack).op_count = op_count from rfl, add_u32, if_pos (by omega),
    hallowed, beq_false_of_ne hseparator]
  change ((ensure (decide (op_count + 1 ≤ MAX_OPS_PER_SCRIPT)) _ >>= _) >>= _) = _
  rw [decide_eq_true (by omega)]
  change (perform crypto checker flags sigversion script opcode []
    (straight exec_data (pc + 1) (op_count + 1) opcode_pos stack) >>= _) = _
  rw [perform, if_neg (fun h => absurd h.2 (UInt8.not_le.mpr hpush)), if_pos (.inl rfl)]
  change ((Operation.from_u8 opcode).run crypto checker flags sigversion script true _ >>= _) = _
  rw [hrun]
  change (ensure (decide (after.length ≤ MAX_STACK_SIZE)) _ >>= _) = _
  rw [decide_eq_true hroom]
  change (add_u32 opcode_pos 1 >>= _) = _
  rw [add_u32, if_pos hpos]
  rfl

theorem build_p2pkh_data {pubkey_hash : List UInt8} (hlength : pubkey_hash.length = 20) :
    (build_p2pkh pubkey_hash).data = OP_DUP :: OP_HASH160 :: 0x14 :: (pubkey_hash ++ [OP_EQUALVERIFY, OP_CHECKSIG]) := by
  unfold build_p2pkh Script.push_opcode
  rw [push_data_data (by omega) (by omega), hlength]
  simp only [List.append_assoc]
  rfl

theorem build_p2pkh_drops {pubkey_hash : List UInt8} (hlength : pubkey_hash.length = 20) :
    (build_p2pkh pubkey_hash).len = 25 ∧
      (build_p2pkh pubkey_hash).data.drop 1 = OP_HASH160 :: 0x14 :: (pubkey_hash ++ [OP_EQUALVERIFY, OP_CHECKSIG]) ∧
      (build_p2pkh pubkey_hash).data.drop 2 =
        UInt8.ofNat pubkey_hash.length :: (pubkey_hash ++ [OP_EQUALVERIFY, OP_CHECKSIG]) ∧
      (build_p2pkh pubkey_hash).data.drop 23 = [OP_EQUALVERIFY, OP_CHECKSIG] ∧
      (build_p2pkh pubkey_hash).data.drop 24 = [OP_CHECKSIG] := by
  have hdata := build_p2pkh_data hlength
  have hlen : (build_p2pkh pubkey_hash).len = 25 := by
    rw [Script.len, hdata]
    simp only [List.length_cons, List.length_append, hlength, List.length_nil]
  have hdrop₁ : (build_p2pkh pubkey_hash).data.drop 1 = OP_HASH160 :: 0x14 :: (pubkey_hash ++ [OP_EQUALVERIFY, OP_CHECKSIG]) := by
    rw [hdata]
    rfl
  have hdrop₂ : (build_p2pkh pubkey_hash).data.drop 2 =
      UInt8.ofNat pubkey_hash.length :: (pubkey_hash ++ [OP_EQUALVERIFY, OP_CHECKSIG]) := by
    rw [hdata, hlength]
    rfl
  have hdrop₂₃ : (build_p2pkh pubkey_hash).data.drop 23 = [OP_EQUALVERIFY, OP_CHECKSIG] := by
    rw [hdata]
    change (pubkey_hash ++ _).drop 20 = _
    rw [← hlength, List.drop_left]
  have hdrop₂₄ : (build_p2pkh pubkey_hash).data.drop 24 = [OP_CHECKSIG] := by
    rw [← List.drop_drop (i := 1) (j := 23), hdrop₂₃]
    rfl
  exact ⟨hlen, hdrop₁, hdrop₂, hdrop₂₃, hdrop₂₄⟩

theorem is_p2pkh_build_p2pkh {pubkey_hash : List UInt8} (hlength : pubkey_hash.length = 20) :
    (build_p2pkh pubkey_hash).is_p2pkh = true := by
  have hdata := build_p2pkh_data hlength
  obtain ⟨hlen, -, -, hdrop₂₃, -⟩ := build_p2pkh_drops hlength
  have hget : ∀ k, (build_p2pkh pubkey_hash).data.getD (23 + k) 0 = [OP_EQUALVERIFY, OP_CHECKSIG].getD k 0 := by
    intro k
    rw [List.getD_eq_getElem?_getD, ← List.getElem?_drop, hdrop₂₃, List.getD_eq_getElem?_getD]
  rw [Script.is_p2pkh, show (build_p2pkh pubkey_hash).data.length = 25 from hlen, hget 0, hget 1, hdata]
  rfl

theorem find_and_delete_loop_skip {pattern : List UInt8} {pos new_pos copy_start fuel : Nat} {opcode : UInt8}
    {data : List UInt8} (hget : script.get_op pos = some (opcode, data, new_pos)) (hnext : pos ≤ new_pos)
    (hother : pattern.isPrefixOf (script.data.drop pos) = false) :
    (find_and_delete_loop script pattern (fuel + 1) pos copy_start).2 =
      (find_and_delete_loop script pattern fuel new_pos pos).2 := by
  have hnone : repeats pattern script.len (script.data.drop pos) = 0 := by
    cases script.len with
    | zero => rfl
    | succ len => rw [repeats, hother, if_neg Bool.false_ne_true]
  rw [find_and_delete_loop, hget]
  dsimp only
  rw [hnone, Nat.zero_mul, Nat.add_zero, Nat.zero_add, Nat.max_eq_right hnext]

theorem drop_signature_p2pkh {pubkey_hash sig : List UInt8} (hlength : pubkey_hash.length = 20)
    (hlow : 1 ≤ sig.length) (hhigh : sig.length ≤ 75) (hne : sig ≠ pubkey_hash) :
    drop_signature flags sigversion (build_p2pkh pubkey_hash) sig = .ok (build_p2pkh pubkey_hash) := by
  have hdrop₀ : (build_p2pkh pubkey_hash).data.drop 0 = _ := build_p2pkh_data hlength
  obtain ⟨hlen, hdrop₁, hdrop₂, hdrop₂₃, hdrop₂₄⟩ := build_p2pkh_drops hlength
  have hpattern : (Script.new.push_data sig).data = UInt8.ofNat sig.length :: sig := push_data_data hlow hhigh _
  have hvalue : (UInt8.ofNat sig.length).toNat = sig.length :=
    UInt8.toNat_ofNat_of_lt' (Nat.lt_of_le_of_lt hhigh (by decide))
  have hopcode : ∀ {opcode : UInt8} {rest : List UInt8}, 75 < opcode.toNat →
      (UInt8.ofNat sig.length :: sig).isPrefixOf (opcode :: rest) = false := by
    intro opcode rest hopcode
    rw [List.isPrefixOf, beq_false_of_ne (fun heq => by rw [← heq, hvalue] at hopcode; omega)]
    rfl
  have hpush : (UInt8.ofNat sig.length :: sig).isPrefixOf
      (UInt8.ofNat pubkey_hash.length :: (pubkey_hash ++ [OP_EQUALVERIFY, OP_CHECKSIG])) = false := by
    rw [Bool.eq_false_iff]
    intro hfront
    obtain ⟨hhead, htail⟩ := List.cons_prefix_cons.mp (List.isPrefixOf_iff_prefix.mp hfront)
    have hsame : sig.length = pubkey_hash.length := by
      rw [← hvalue, hhead, hlength]
      rfl
    exact hne (List.prefix_of_prefix_length_le htail (List.prefix_append _ _) hsame.le |>.eq_of_length hsame)
  have hnone : (find_and_delete_loop (build_p2pkh pubkey_hash) (UInt8.ofNat sig.length :: sig) 26 0 0).2 = 0 := by
    have hend : (build_p2pkh pubkey_hash).get_op 25 = none := by
      rw [Script.get_op, List.drop_eq_nil_of_le (Nat.le_of_eq hlen)]
    have hget := get_op_push (by omega) hdrop₂
    rw [hlength] at hget
    have hskip : ∀ {opcode : UInt8} {rest : List UInt8} {fuel pos copy_start : Nat}, OP_PUSHDATA4 < opcode →
        (build_p2pkh pubkey_hash).data.drop pos = opcode :: rest →
        (find_and_delete_loop (build_p2pkh pubkey_hash) (UInt8.ofNat sig.length :: sig) (fuel + 1) pos copy_start).2 =
          (find_and_delete_loop (build_p2pkh pubkey_hash) (UInt8.ofNat sig.length :: sig) fuel (pos + 1) pos).2 := by
      intro opcode rest fuel pos copy_start hhigh hdrop
      refine find_and_delete_loop_skip (get_op_opcode hhigh hdrop) (Nat.le_succ pos) ?_
      rw [hdrop]
      exact hopcode (Nat.lt_trans (by decide) (UInt8.lt_iff_toNat_lt.mp hhigh))
    rw [hskip (by decide) hdrop₀, hskip (by decide) hdrop₁, find_and_delete_loop_skip hget (by decide) (by rw [hdrop₂]; exact hpush),
      hskip (by decide) hdrop₂₃, hskip (by decide) hdrop₂₄, find_and_delete_loop, hend]
  have hdelete : find_and_delete (build_p2pkh pubkey_hash) (UInt8.ofNat sig.length :: sig) =
      (build_p2pkh pubkey_hash, 0) := by
    rw [find_and_delete, List.isEmpty_cons, if_neg Bool.false_ne_true, hlen]
    dsimp only
    rw [hnone, if_neg (by decide)]
  rw [drop_signature, hpattern, hdelete]
  split <;> rfl

theorem checksig_ecdsa_true {sig pubkey : List UInt8} (hbegin : state.pbegincodehash = 0)
    (hdrop : drop_signature flags sigversion script sig = .ok script)
    (hsig : check_signature_encoding crypto flags sig = .ok ())
    (hpubkey : check_pubkey_encoding flags pubkey sigversion = .ok ())
    (hcheck : checker.check_ecdsa_signature sig pubkey script sigversion = true) :
    checksig_ecdsa crypto checker flags sigversion script state sig pubkey = .ok true := by
  have hcode : script_code script state.pbegincodehash = .ok script := by
    rw [hbegin, script_code, if_pos (Nat.zero_le _)]
    rfl
  rw [checksig_ecdsa, hcode]
  change (drop_signature flags sigversion script sig >>= _) = _
  rw [hdrop]
  change (check_signature_encoding crypto flags sig >>= _) = _
  rw [hsig]
  change (check_pubkey_encoding flags pubkey sigversion >>= _) = _
  rw [hpubkey]
  change (ensure _ _ >>= _) = _
  rw [hcheck]
  rfl

theorem minimal_push {data : List UInt8} (hlow : 2 ≤ data.length) (hhigh : data.length ≤ 75) :
    check_minimal_push data (UInt8.ofNat data.length) = true := by
  obtain ⟨first, second, rest, rfl⟩ : ∃ first second rest, data = first :: second :: rest := by
    match data, hlow with
    | first :: second :: rest, _ => exact ⟨first, second, rest, rfl⟩
  rw [check_minimal_push, if_neg (fun h => Bool.false_ne_true h.1), if_neg (fun h => Bool.false_ne_true h.1), if_pos hhigh]
  rw [UInt8.toNat_ofNat_of_lt' (Nat.lt_of_le_of_lt hhigh (by decide))]
  exact beq_self_eq_true _

theorem op_equal_same (value : StackValue) (stack : Stack) : op_equal true (value :: value :: stack) = .ok stack := by
  change push_result true (value == value) .EqualVerify stack = _
  rw [beq_self_eq_true]
  rfl

theorem eval_p2pkh {sig pubkey pubkey_hash : List UInt8}
    (hversion : sigversion.before_taproot = true) (hhash : (crypto.hash160 pubkey).val = pubkey_hash)
    (hdrop : drop_signature flags sigversion (build_p2pkh pubkey_hash) sig = .ok (build_p2pkh pubkey_hash))
    (hsig : check_signature_encoding crypto flags sig = .ok ())
    (hpubkey : check_pubkey_encoding flags pubkey sigversion = .ok ())
    (hcheck : checker.check_ecdsa_signature sig pubkey (build_p2pkh pubkey_hash) sigversion = true) :
    ∃ after, eval_script crypto checker flags sigversion (build_p2pkh pubkey_hash) [pubkey, sig] exec_data =
      .ok ([[1]], after) := by
  have hlength : pubkey_hash.length = 20 := by
    rw [← hhash]
    exact (crypto.hash160 pubkey).property
  have hdata := build_p2pkh_data hlength
  obtain ⟨hlen, hdrop₁, hdrop₂, hdrop₂₃, hdrop₂₄⟩ := build_p2pkh_drops hlength
  have htaproot : sigversion ≠ .Taproot := fun heq => by
    rw [heq] at hversion
    cases hversion
  have hchecksig : op_checksig crypto checker flags sigversion (build_p2pkh pubkey_hash) false
      (straight exec_data 25 4 4 [pubkey, sig]) = .ok (straight exec_data 25 4 4 [[1]]) := by
    change (eval_checksig crypto checker flags sigversion (build_p2pkh pubkey_hash) _ sig pubkey >>= _) = _
    rw [eval_checksig, hversion, if_pos rfl, checksig_ecdsa_true rfl hdrop hsig hpubkey hcheck]
    rfl
  have h₁ : step crypto checker flags sigversion (build_p2pkh pubkey_hash) (straight exec_data 0 0 0 [pubkey, sig]) =
      .ok (straight exec_data 1 1 1 [pubkey, pubkey, sig]) :=
    step_op hdata (by decide) (by decide) (by decide) hversion (by decide) rfl (by simp [MAX_STACK_SIZE]) (by decide)
  have h₂ : step crypto checker flags sigversion (build_p2pkh pubkey_hash)
      (straight exec_data 1 1 1 [pubkey, pubkey, sig]) = .ok (straight exec_data 2 2 2 [pubkey_hash, pubkey, sig]) := by
    refine step_op hdrop₁ (by decide) (by decide) (by decide) hversion (by decide) ?_ (by simp [MAX_STACK_SIZE]) (by decide)
    rw [← hhash]
    rfl
  have h₃ : step crypto checker flags sigversion (build_p2pkh pubkey_hash)
      (straight exec_data 2 2 2 [pubkey_hash, pubkey, sig]) =
        .ok (straight exec_data 23 2 3 [pubkey_hash, pubkey_hash, pubkey, sig]) := by
    have hpush := @step_push crypto checker flags sigversion (build_p2pkh pubkey_hash) exec_data 2 2 2
      [pubkey_hash, pubkey, sig] _ _ hdrop₂ (by omega) (minimal_push (by omega) (by omega)) (by simp [MAX_STACK_SIZE])
      (by decide)
    rw [hlength] at hpush
    exact hpush
  have h₄ : step crypto checker flags sigversion (build_p2pkh pubkey_hash)
      (straight exec_data 23 2 3 [pubkey_hash, pubkey_hash, pubkey, sig]) =
        .ok (straight exec_data 24 3 4 [pubkey, sig]) := by
    refine step_op hdrop₂₃ (by decide) (by decide) (by decide) hversion (by decide) ?_ (by simp [MAX_STACK_SIZE]) (by decide)
    change on_stack _ (op_equal true) = _
    rw [on_stack]
    change (op_equal true (pubkey_hash :: pubkey_hash :: [pubkey, sig]) >>= _) = _
    rw [op_equal_same]
    rfl
  have h₅ : step crypto checker flags sigversion (build_p2pkh pubkey_hash) (straight exec_data 24 3 4 [pubkey, sig]) =
      .ok (straight exec_data 25 4 5 [[1]]) :=
    step_op hdrop₂₄ (by decide) (by decide) (by decide) hversion (by decide) hchecksig (by simp [MAX_STACK_SIZE])
      (by decide)
  have hin : ∀ {n : Nat}, n < 25 → n < (build_p2pkh pubkey_hash).len := fun h => by
    rw [hlen]
    exact h
  have hpasses : Passes crypto checker flags sigversion (build_p2pkh pubkey_hash) 5 (.start [pubkey, sig] exec_data)
      (straight exec_data 25 4 5 [[1]]) :=
    .step (hin (n := 0) (by decide)) h₁ <| .step (hin (n := 1) (by decide)) h₂ <| .step (hin (n := 2) (by decide)) h₃ <|
      .step (hin (n := 23) (by decide)) h₄ <| .step (hin (n := 24) (by decide)) h₅ (.refl _)
  exact ⟨_, hpasses.eval_script htaproot (by rw [hlen]; decide) (by omega) (by rw [hlen]; rfl) rfl⟩

theorem eval_empty (hversion : sigversion ≠ .Taproot) :
    ∃ after, eval_script crypto checker flags sigversion .new stack exec_data = .ok (stack, after) := by
  have hpasses : Passes crypto checker flags sigversion .new 0 (.start stack exec_data) (.start stack exec_data) := .refl _
  exact ⟨_, hpasses.eval_script hversion (by decide) (by decide) (by exact Nat.le_refl 0) rfl⟩

theorem eval_one_push {data : List UInt8} (hversion : sigversion ≠ .Taproot) (hlow : 2 ≤ data.length)
    (hhigh : data.length ≤ 75) :
    ∃ after, eval_script crypto checker flags sigversion (Script.new.push_data data) [] exec_data = .ok ([data], after) := by
  have hdata : (Script.new.push_data data).data = UInt8.ofNat data.length :: data := push_data_data (by omega) hhigh _
  have hlen : (Script.new.push_data data).len = data.length + 1 := by rw [Script.len, hdata, List.length_cons]
  have hdrop : (Script.new.push_data data).data.drop 0 = UInt8.ofNat data.length :: (data ++ []) := by
    rw [hdata, List.append_nil]
    rfl
  have hpush : step crypto checker flags sigversion (Script.new.push_data data) (straight exec_data 0 0 0 []) =
      .ok (straight exec_data (0 + 1 + data.length) 0 1 [data]) :=
    step_push hdrop hhigh (minimal_push hlow hhigh) (by decide) (by decide)
  have hpasses : Passes crypto checker flags sigversion (Script.new.push_data data) 1 (.start [] exec_data)
      (straight exec_data (0 + 1 + data.length) 0 1 [data]) :=
    .step (by rw [hlen]; exact Nat.succ_pos _) hpush (.refl _)
  have hend : (Script.new.push_data data).len ≤ 0 + 1 + data.length := by omega
  have hsize : (Script.new.push_data data).len ≤ MAX_SCRIPT_SIZE := by
    rw [hlen]
    exact Nat.le_trans (Nat.succ_le_succ hhigh) (by decide)
  exact ⟨_, hpasses.eval_script hversion hsize (by omega) hend rfl⟩

theorem eval_two_pushes {first second : List UInt8} (hversion : sigversion ≠ .Taproot) (hfirst : 2 ≤ first.length)
    (hfirst' : first.length ≤ 75) (hsecond : 2 ≤ second.length) (hsecond' : second.length ≤ 75) :
    ∃ after, eval_script crypto checker flags sigversion ((Script.new.push_data first).push_data second) [] exec_data =
      .ok ([second, first], after) := by
  have hdata : ((Script.new.push_data first).push_data second).data =
      UInt8.ofNat first.length :: (first ++ UInt8.ofNat second.length :: second) := by
    rw [push_data_data (by omega) hsecond', push_data_data (by omega) hfirst']
    rfl
  have hlen : ((Script.new.push_data first).push_data second).len = first.length + second.length + 2 := by
    rw [Script.len, hdata, List.length_cons, List.length_append, List.length_cons]
    omega
  have hdrop : ((Script.new.push_data first).push_data second).data.drop (0 + 1 + first.length) =
      UInt8.ofNat second.length :: (second ++ []) := by
    rw [hdata, Nat.zero_add, ← List.drop_drop, List.append_nil]
    change (first ++ _).drop first.length = _
    rw [List.drop_left]
  have h₁ : step crypto checker flags sigversion ((Script.new.push_data first).push_data second)
      (straight exec_data 0 0 0 []) = .ok (straight exec_data (0 + 1 + first.length) 0 1 [first]) :=
    step_push hdata hfirst' (minimal_push hfirst hfirst') (by decide) (by decide)
  have h₂ : step crypto checker flags sigversion ((Script.new.push_data first).push_data second)
      (straight exec_data (0 + 1 + first.length) 0 1 [first]) =
        .ok (straight exec_data (0 + 1 + first.length + 1 + second.length) 0 2 [second, first]) :=
    step_push hdrop hsecond' (minimal_push hsecond hsecond') (by simp [MAX_STACK_SIZE]) (by decide)
  have hpc : 0 + 1 + first.length < ((Script.new.push_data first).push_data second).len := by omega
  have hpasses : Passes crypto checker flags sigversion ((Script.new.push_data first).push_data second) 2
      (.start [] exec_data) (straight exec_data (0 + 1 + first.length + 1 + second.length) 0 2 [second, first]) :=
    .step (by rw [hlen]; exact Nat.succ_pos _) h₁ (.step hpc h₂ (.refl _))
  have hend : ((Script.new.push_data first).push_data second).len ≤ 0 + 1 + first.length + 1 + second.length := by omega
  have hsize : ((Script.new.push_data first).push_data second).len ≤ MAX_SCRIPT_SIZE := by
    rw [hlen, MAX_SCRIPT_SIZE]
    omega
  exact ⟨_, hpasses.eval_script hversion hsize (by omega) hend rfl⟩

theorem eval_program {version : UInt8} {program : List UInt8} {value : StackValue} (hversion : sigversion ≠ .Taproot)
    (hlow : 2 ≤ program.length) (hhigh : program.length ≤ 75)
    (hfirst : step crypto checker flags sigversion ((Script.mk [version]).push_data program)
      (straight exec_data 0 0 0 []) = .ok (straight exec_data 1 0 1 [value])) :
    ∃ after, eval_script crypto checker flags sigversion ((Script.mk [version]).push_data program) [] exec_data =
      .ok ([program, value], after) := by
  have hdata := @program_data version program (by omega) hhigh
  have hlen : ((Script.mk [version]).push_data program).len = program.length + 2 := len_program (by omega) hhigh
  have hdrop : ((Script.mk [version]).push_data program).data.drop 1 =
      UInt8.ofNat program.length :: (program ++ []) := by
    rw [hdata, List.append_nil]
    rfl
  have hpush : step crypto checker flags sigversion ((Script.mk [version]).push_data program)
      (straight exec_data 1 0 1 [value]) = .ok (straight exec_data (1 + 1 + program.length) 0 2 [program, value]) :=
    step_push hdrop hhigh (minimal_push hlow hhigh) (by simp [MAX_STACK_SIZE]) (by decide)
  have hpc : 1 < ((Script.mk [version]).push_data program).len := by omega
  have hpasses : Passes crypto checker flags sigversion ((Script.mk [version]).push_data program) 2 (.start [] exec_data)
      (straight exec_data (1 + 1 + program.length) 0 2 [program, value]) :=
    .step (by rw [hlen]; exact Nat.succ_pos _) hfirst (.step hpc hpush (.refl _))
  have hend : ((Script.mk [version]).push_data program).len ≤ 1 + 1 + program.length := by omega
  have hsize : ((Script.mk [version]).push_data program).len ≤ MAX_SCRIPT_SIZE := by
    rw [hlen, MAX_SCRIPT_SIZE]
    omega
  exact ⟨_, hpasses.eval_script hversion hsize (by omega) hend rfl⟩

theorem eval_p2wpkh {program : List UInt8} (hversion : sigversion ≠ .Taproot) (hlength : program.length = 20) :
    ∃ after, eval_script crypto checker flags sigversion (build_p2wpkh program) [] exec_data =
      .ok ([program, []], after) := by
  have hdata := @program_data OP_0 program (by omega) (by omega)
  refine eval_program hversion (by omega) (by omega) ?_
  exact @step_push crypto checker flags sigversion _ exec_data 0 0 0 [] [] _ hdata (by decide) rfl (by decide) (by decide)

theorem eval_p2tr {program : List UInt8} (hversion : sigversion ≠ .Taproot) (hlength : program.length = 32) :
    ∃ after, eval_script crypto checker flags sigversion (build_p2tr program) [] exec_data =
      .ok ([program, [1]], after) := by
  have hdata := @program_data OP_1 program (by omega) (by omega)
  have hget : ((Script.mk [OP_1]).push_data program).get_op 0 = some (OP_1, [], 1) := get_op_opcode (by decide) hdata
  refine eval_program hversion (by omega) (by omega) ?_
  rw [step, show (straight exec_data 0 0 0 []).pc = 0 from rfl, hget]
  cases sigversion <;> rfl

theorem eval_p2sh {redeem : List UInt8} (hversion : sigversion.before_taproot = true) :
    ∃ after, eval_script crypto checker flags sigversion (build_p2sh (crypto.hash160 redeem).val) [redeem] exec_data =
      .ok ([[1]], after) := by
  obtain ⟨hash, hhash⟩ : ∃ hash, (crypto.hash160 redeem).val = hash := ⟨_, rfl⟩
  have hlength : hash.length = 20 := by
    rw [← hhash]
    exact (crypto.hash160 redeem).property
  rw [hhash]
  have hdata := build_p2sh_data hlength
  have hlen : (build_p2sh hash).len = 23 := len_build_p2sh hlength
  have hdrop₁ : (build_p2sh hash).data.drop 1 = UInt8.ofNat hash.length :: (hash ++ [OP_EQUAL]) := by
    rw [hdata, hlength]
    rfl
  have hdrop₂₂ : (build_p2sh hash).data.drop 22 = [OP_EQUAL] := by
    rw [hdata]
    change (hash ++ _).drop 20 = _
    rw [← hlength, List.drop_left]
  have htaproot : sigversion ≠ .Taproot := fun heq => by
    rw [heq] at hversion
    cases hversion
  have h₁ : step crypto checker flags sigversion (build_p2sh hash) (straight exec_data 0 0 0 [redeem]) =
      .ok (straight exec_data 1 1 1 [hash]) := by
    refine step_op hdata (by decide) (by decide) (by decide) hversion (by decide) ?_ (by simp [MAX_STACK_SIZE]) (by decide)
    rw [← hhash]
    rfl
  have h₂ : step crypto checker flags sigversion (build_p2sh hash) (straight exec_data 1 1 1 [hash]) =
      .ok (straight exec_data 22 1 2 [hash, hash]) := by
    have hpush := @step_push crypto checker flags sigversion (build_p2sh hash) exec_data 1 1 1 [hash] _ _ hdrop₁ (by omega)
      (minimal_push (by omega) (by omega)) (by simp [MAX_STACK_SIZE]) (by decide)
    rw [hlength] at hpush
    exact hpush
  have h₃ : step crypto checker flags sigversion (build_p2sh hash) (straight exec_data 22 1 2 [hash, hash]) =
      .ok (straight exec_data 23 2 3 [[1]]) := by
    refine step_op hdrop₂₂ (by decide) (by decide) (by decide) hversion (by decide) ?_ (by simp [MAX_STACK_SIZE]) (by decide)
    change (push_result false (hash == hash) .EqualVerify [] >>= _) = _
    rw [beq_self_eq_true]
    rfl
  have hin : ∀ {n : Nat}, n < 23 → n < (build_p2sh hash).len := fun h => by
    rw [hlen]
    exact h
  have hpasses : Passes crypto checker flags sigversion (build_p2sh hash) 3 (.start [redeem] exec_data)
      (straight exec_data 23 2 3 [[1]]) :=
    .step (hin (n := 0) (by decide)) h₁ <| .step (hin (n := 1) (by decide)) h₂ <|
      .step (hin (n := 22) (by decide)) h₃ (.refl _)
  exact ⟨_, hpasses.eval_script htaproot (by rw [hlen]; decide) (by omega) (by rw [hlen]; rfl) rfl⟩

section

open ScriptVerifyFlags

variable {script_sig script_pubkey : Script} {witness : Witness} {stack_copy : Stack} {copy_data after : ScriptExecutionData}

theorem check_result_cons {value : StackValue} (htrue : cast_to_bool value = true) :
    check_result (value :: stack) = .ok () := by
  change ensure (cast_to_bool value) .EvalFalse = _
  rw [htrue]
  rfl

theorem check_result_false {value : StackValue} (hfalse : cast_to_bool value = false) :
    check_result (value :: stack) = .error (.invalid .EvalFalse) := by
  change ensure (cast_to_bool value) .EvalFalse = _
  rw [hfalse]
  rfl

theorem verify_script_of_evals
    (hsig : eval_script crypto checker STANDARD_SCRIPT_VERIFY_FLAGS .Base script_sig [] .default =
      .ok (stack_copy, copy_data))
    (hpubkey : eval_script crypto checker STANDARD_SCRIPT_VERIFY_FLAGS .Base script_pubkey stack_copy .default =
      .ok (stack, after)) :
    verify_script crypto checker STANDARD_SCRIPT_VERIFY_FLAGS script_sig script_pubkey witness =
      (check_result stack >>= fun _ =>
        verify_bare_program crypto checker STANDARD_SCRIPT_VERIFY_FLAGS script_sig script_pubkey witness stack >>= fun bare =>
          if script_pubkey.is_p2sh then
            verify_p2sh crypto checker STANDARD_SCRIPT_VERIFY_FLAGS script_sig witness bare.1 stack_copy
          else check_clean STANDARD_SCRIPT_VERIFY_FLAGS witness bare.1 bare.2) := by
  rw [verify_script]
  change (eval_script crypto checker STANDARD_SCRIPT_VERIFY_FLAGS .Base script_sig [] .default >>= _) = _
  rw [hsig]
  change (eval_script crypto checker STANDARD_SCRIPT_VERIFY_FLAGS .Base script_pubkey stack_copy .default >>= _) = _
  rw [hpubkey]
  rfl

theorem is_witness_program_push {version : UInt8} {program : List UInt8} (hversion : version = OP_0 ∨ version = OP_1)
    (hlow : 2 ≤ program.length) (hhigh : program.length ≤ 40) :
    ((Script.mk [version]).push_data program).is_witness_program =
      some (if version = 0 then 0 else version.toNat - 0x50, program) := by
  have hdata := @program_data version program (by omega) (by omega)
  have hvalue : (UInt8.ofNat program.length).toNat = program.length :=
    UInt8.toNat_ofNat_of_lt' (Nat.lt_of_le_of_lt hhigh (by decide))
  have hopcode : ¬ (version ≠ OP_0 ∧ ¬ (OP_1 ≤ version ∧ version ≤ OP_16)) := by
    rcases hversion with rfl | rfl <;> decide
  rw [Script.is_witness_program, hdata]
  simp only [List.length_cons, List.getD_cons_zero, List.getD_cons_succ, hvalue, List.drop_succ_cons, List.drop_zero]
  rw [if_neg (by omega), if_neg hopcode, if_neg (by omega)]

theorem is_p2sh_eq_false (hlength : script.data.length ≠ 23) : script.is_p2sh = false := by
  rw [Script.is_p2sh, beq_false_of_ne hlength]
  rfl

theorem is_push_only_push {data : List UInt8} (hlow : 1 ≤ data.length) (hhigh : data.length ≤ 75) :
    (Script.new.push_data data).is_push_only = true := by
  have hdata : (Script.new.push_data data).data = UInt8.ofNat data.length :: data := push_data_data hlow hhigh _
  have hdrop : (Script.new.push_data data).data.drop 0 = UInt8.ofNat data.length :: (data ++ []) := by
    rw [hdata, List.append_nil]
    rfl
  have hlen : (Script.new.push_data data).len = data.length + 1 := by rw [Script.len, hdata, List.length_cons]
  have hopcode : ¬ OP_16 < UInt8.ofNat data.length := by
    rw [UInt8.not_lt, UInt8.le_iff_toNat_le, UInt8.toNat_ofNat_of_lt' (Nat.lt_of_le_of_lt hhigh (by decide))]
    exact hhigh.trans (by decide)
  have hend : (Script.new.push_data data).get_op (0 + 1 + data.length) = none := by
    rw [Script.get_op, List.drop_eq_nil_of_le (by rw [hdata, List.length_cons]; omega)]
  obtain ⟨fuel, hfuel⟩ := Nat.exists_eq_add_of_le' hlow
  rw [Script.is_push_only, hlen, Script.is_push_only_loop, get_op_push hhigh hdrop]
  dsimp only
  rw [if_neg hopcode, hfuel, Script.is_push_only_loop, ← hfuel, hend]

theorem verify_p2pkh {sig pubkey : List UInt8} (hlow : 2 ≤ sig.length) (hhigh : sig.length ≤ 75)
    (hlength : pubkey.length = 33)
    (hdrop : drop_signature STANDARD_SCRIPT_VERIFY_FLAGS .Base (build_p2pkh (crypto.hash160 pubkey).val) sig =
      .ok (build_p2pkh (crypto.hash160 pubkey).val))
    (hsig : check_signature_encoding crypto STANDARD_SCRIPT_VERIFY_FLAGS sig = .ok ())
    (hpubkey : check_pubkey_encoding STANDARD_SCRIPT_VERIFY_FLAGS pubkey .Base = .ok ())
    (hcheck : checker.check_ecdsa_signature sig pubkey (build_p2pkh (crypto.hash160 pubkey).val) .Base = true) :
    verify_script crypto checker STANDARD_SCRIPT_VERIFY_FLAGS ((Script.new.push_data sig).push_data pubkey)
        (build_p2pkh (crypto.hash160 pubkey).val) witness = .ok () ↔ witness.is_null = true := by
  have hhash := (crypto.hash160 pubkey).property
  have hdata := build_p2pkh_data hhash
  obtain ⟨_, hcopy⟩ := @eval_two_pushes crypto checker STANDARD_SCRIPT_VERIFY_FLAGS .Base .default sig pubkey (by decide)
    hlow hhigh (by omega) (by omega)
  obtain ⟨_, heval⟩ := @eval_p2pkh crypto checker STANDARD_SCRIPT_VERIFY_FLAGS .Base .default sig pubkey _ rfl rfl hdrop
    hsig hpubkey hcheck
  have hlen : (build_p2pkh (crypto.hash160 pubkey).val).data.length = 25 := by
    rw [hdata]
    simp only [List.length_cons, List.length_append, hhash, List.length_nil]
  have hprogram : (build_p2pkh (crypto.hash160 pubkey).val).is_witness_program = none := by
    rw [Script.is_witness_program, if_neg (by omega), hdata]
    rfl
  rw [verify_script_of_evals hcopy heval, is_p2sh_eq_false (by omega), verify_bare_program, if_pos (by decide), hprogram]
  change ensure (false || witness.is_null) .WitnessUnexpected = _ ↔ _
  rw [Bool.false_or]
  exact require_eq_ok

theorem verify_key_hash {sig pubkey : List UInt8} {is_p2sh : Bool} (hsize : sig.length ≤ MAX_SCRIPT_ELEMENT_SIZE)
    (hlength : pubkey.length = 33)
    (hsig : check_signature_encoding crypto STANDARD_SCRIPT_VERIFY_FLAGS sig = .ok ())
    (hpubkey : check_pubkey_encoding STANDARD_SCRIPT_VERIFY_FLAGS pubkey .WitnessV0 = .ok ())
    (hcheck : checker.check_ecdsa_signature sig pubkey (build_p2pkh (crypto.hash160 pubkey).val) .WitnessV0 = true) :
    verify_witness_program crypto checker STANDARD_SCRIPT_VERIFY_FLAGS ⟨[sig, pubkey]⟩ 0 (crypto.hash160 pubkey).val is_p2sh =
      .ok () := by
  have hhash := (crypto.hash160 pubkey).property
  obtain ⟨_, heval⟩ := @eval_p2pkh crypto checker STANDARD_SCRIPT_VERIFY_FLAGS .WitnessV0 .default sig pubkey _ rfl rfl rfl
    hsig hpubkey hcheck
  have hsmall : ([pubkey, sig].all fun item => decide (item.length ≤ MAX_SCRIPT_ELEMENT_SIZE)) = true := by
    rw [List.all_cons, List.all_cons, List.all_nil, decide_eq_true hsize, hlength]
    rfl
  rw [verify_witness_program, if_pos rfl, if_neg (by omega), if_pos hhash]
  change execute_witness_script crypto checker STANDARD_SCRIPT_VERIFY_FLAGS [pubkey, sig] _ .WitnessV0 .default = _
  rw [execute_witness_script, hsmall]
  change (eval_script crypto checker STANDARD_SCRIPT_VERIFY_FLAGS .WitnessV0 _ [pubkey, sig] .default >>= _) = _
  rw [heval]
  rfl

theorem verify_p2wpkh {program : List UInt8} (hlength : program.length = 20) (htrue : cast_to_bool program = true)
    (hprogram : verify_witness_program crypto checker STANDARD_SCRIPT_VERIFY_FLAGS witness 0 program false = .ok ()) :
    verify_script crypto checker STANDARD_SCRIPT_VERIFY_FLAGS .new (build_p2wpkh program) witness = .ok () := by
  have hwitness : (build_p2wpkh program).is_witness_program = some (0, program) :=
    is_witness_program_push (.inl rfl) (by omega) (by omega)
  have hlen := len_build_p2wpkh hlength
  obtain ⟨_, hcopy⟩ := @eval_empty crypto checker STANDARD_SCRIPT_VERIFY_FLAGS .Base .default [] (by decide)
  obtain ⟨_, heval⟩ := @eval_p2wpkh crypto checker STANDARD_SCRIPT_VERIFY_FLAGS .Base .default program (by decide) hlength
  rw [verify_script_of_evals hcopy heval, check_result_cons htrue,
    is_p2sh_eq_false (by omega), verify_bare_program, if_pos (by decide), hwitness]
  change ((verify_witness_program crypto checker STANDARD_SCRIPT_VERIFY_FLAGS witness 0 program false >>= _) >>= _) = _
  rw [hprogram]
  rfl

theorem verify_p2sh_p2wpkh {program : List UInt8} (hlength : program.length = 20) (htrue : cast_to_bool program = true)
    (hprogram : verify_witness_program crypto checker STANDARD_SCRIPT_VERIFY_FLAGS witness 0 program true = .ok ()) :
    verify_script crypto checker STANDARD_SCRIPT_VERIFY_FLAGS (Script.new.push_data (build_p2wpkh program).data)
      (build_p2sh (crypto.hash160 (build_p2wpkh program).data).val) witness = .ok () := by
  have hwitness : (build_p2wpkh program).is_witness_program = some (0, program) :=
    is_witness_program_push (.inl rfl) (by omega) (by omega)
  have hlen := len_build_p2wpkh hlength
  obtain ⟨_, hcopy⟩ := @eval_one_push crypto checker STANDARD_SCRIPT_VERIFY_FLAGS .Base .default
    (build_p2wpkh program).data (by decide) (by omega) (by omega)
  obtain ⟨_, heval⟩ := @eval_p2sh crypto checker STANDARD_SCRIPT_VERIFY_FLAGS .Base .default (build_p2wpkh program).data rfl
  obtain ⟨_, hrun⟩ := @eval_p2wpkh crypto checker STANDARD_SCRIPT_VERIFY_FLAGS .Base .default program (by decide) hlength
  have hhash := (crypto.hash160 (build_p2wpkh program).data).property
  generalize (crypto.hash160 (build_p2wpkh program).data).val = hash at heval hhash ⊢
  have hdata := build_p2sh_data hhash
  have hsize := len_build_p2sh hhash
  have hbare : (build_p2sh hash).is_witness_program = none := by
    rw [Script.is_witness_program, if_neg (by omega), hdata]
    rfl
  have hp2sh : (build_p2sh hash).is_p2sh = true := by
    have hlast : (build_p2sh hash).data.getD 22 0 = OP_EQUAL := by
      rw [hdata]
      change (hash ++ [OP_EQUAL]).getD 20 0 = _
      rw [List.getD_eq_getElem?_getD, List.getElem?_append_right (by omega), hhash]
      rfl
    rw [Script.is_p2sh, hlast, hsize, hdata]
    rfl
  have hpush := is_push_only_push (by omega : 1 ≤ (build_p2wpkh program).data.length) (by omega)
  rw [verify_script_of_evals hcopy heval, hp2sh, verify_bare_program, if_pos (by decide), hbare]
  change verify_p2sh crypto checker STANDARD_SCRIPT_VERIFY_FLAGS _ witness false [(build_p2wpkh program).data] = _
  rw [verify_p2sh, hpush]
  change (eval_script crypto checker STANDARD_SCRIPT_VERIFY_FLAGS .Base (build_p2wpkh program) [] .default >>= _) = _
  rw [hrun]
  change (check_result [program, []] >>= _) = _
  rw [check_result_cons htrue]
  change (verify_nested_program crypto checker STANDARD_SCRIPT_VERIFY_FLAGS _ _ witness false [program, []] >>= _) = _
  rw [verify_nested_program, if_pos (by decide), hwitness]
  dsimp only
  rw [beq_self_eq_true]
  change ((verify_witness_program crypto checker STANDARD_SCRIPT_VERIFY_FLAGS witness 0 program true >>= _) >>= _) = _
  rw [hprogram]
  rfl

theorem verify_p2tr {program sig : List UInt8} (hlength : program.length = 32)
    (hcheck : checker.check_schnorr_signature sig program .Taproot { ScriptExecutionData.default with annex_init := true } =
      .ok ()) :
    verify_script crypto checker STANDARD_SCRIPT_VERIFY_FLAGS .new (build_p2tr program) ⟨[sig]⟩ = .ok () ↔
      cast_to_bool program = true := by
  have hwitness : (build_p2tr program).is_witness_program = some (1, program) :=
    is_witness_program_push (.inr rfl) (by omega) (by omega)
  have hlen := len_build_p2tr hlength
  obtain ⟨_, hcopy⟩ := @eval_empty crypto checker STANDARD_SCRIPT_VERIFY_FLAGS .Base .default [] (by decide)
  obtain ⟨_, heval⟩ := @eval_p2tr crypto checker STANDARD_SCRIPT_VERIFY_FLAGS .Base .default program (by decide) hlength
  have hannex : take_annex crypto [sig] = ([sig], { ScriptExecutionData.default with annex_init := true }) := by
    cases sig <;> rfl
  have hprogram : verify_witness_program crypto checker STANDARD_SCRIPT_VERIFY_FLAGS ⟨[sig]⟩ 1 program false = .ok () := by
    rw [verify_witness_program, if_neg Nat.one_ne_zero, if_pos ⟨rfl, hlength, rfl⟩, if_pos (by decide), verify_taproot,
      hannex]
    change (checker.check_schnorr_signature sig program .Taproot _).mapError Failure.invalid = _
    rw [hcheck]
    rfl
  rw [verify_script_of_evals hcopy heval]
  cases hbool : cast_to_bool program with
  | false =>
    rw [check_result_false hbool]
    exact ⟨nofun, nofun⟩
  | true =>
    rw [check_result_cons hbool, is_p2sh_eq_false (by omega), verify_bare_program, if_pos (by decide),
      hwitness]
    refine ⟨fun _ => rfl, fun _ => ?_⟩
    change ((verify_witness_program crypto checker STANDARD_SCRIPT_VERIFY_FLAGS ⟨[sig]⟩ 1 program false >>= _) >>= _) = _
    rw [hprogram]
    rfl

end

end qubitcoin.interpreter.vm
