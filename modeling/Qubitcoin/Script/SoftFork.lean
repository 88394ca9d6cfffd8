import Qubitcoin.Script.Verify

/-! More flags only restrict: what a script does under some flags it does under fewer. -/

open qubitcoin script transaction outcome

namespace qubitcoin.interpreter.vm

/-- The flags are among the others. -/
def Subset (fewer more : UInt32) : Prop := contains more fewer = true

theorem Subset.contains {fewer more : UInt32} (hsub : Subset fewer more) {flag : UInt32}
    (hflag : interpreter.contains fewer flag = true) : interpreter.contains more flag = true := by
  have hmore : more &&& fewer = fewer := eq_of_beq hsub
  have hfewer : fewer &&& flag = flag := eq_of_beq hflag
  refine beq_iff_eq.mpr ?_
  rw [← hfewer, ← UInt32.and_assoc, hmore]

section

variable {A : Type} {fewer more : UInt32} {stack : Stack}

theorem below_ensure {c d : Bool} {e : ScriptError} (hcd : d = true → c = true) : Below (ensure c e) (ensure d e) := by
  cases d with
  | false => exact .of_error _
  | true =>
    rw [hcd rfl]
    exact .refl _

theorem below_unless (hsub : Subset fewer more) (flag : UInt32) (c : Bool) (e : ScriptError) :
    Below (ensure (!(contains fewer flag && c)) e) (ensure (!(contains more flag && c)) e) := by
  apply below_ensure
  intro hmore
  cases hfewer : contains fewer flag with
  | false => rfl
  | true =>
    rw [hsub.contains hfewer] at hmore
    exact hmore

theorem below_discourage (hsub : Subset fewer more) (flag : UInt32) (e : ScriptError) :
    Below (ensure (!contains fewer flag) e) (ensure (!contains more flag) e) := by
  have hunless := below_unless hsub flag true e
  rw [Bool.and_true, Bool.and_true] at hunless
  exact hunless

theorem below_only_if {c d : Bool} {x y : Run Unit} (hcd : c = true → d = true) (hxy : Below x y) :
    Below (only_if c x) (only_if d y) := by
  cases c with
  | false => exact fun _ _ => rfl
  | true =>
    rw [hcd rfl]
    exact hxy

theorem below_stack_to_script_num {c d : Bool} (hcd : c = true → d = true) (val : List UInt8) (max_size : Nat) :
    Below (stack_to_script_num val c max_size) (stack_to_script_num val d max_size) := by
  refine .bind (.refl _) fun _ => .bind (below_ensure ?_) fun _ => .refl _
  intro hminimal
  cases c with
  | false => rfl
  | true =>
    rw [hcd rfl] at hminimal
    exact hminimal

theorem require_minimal_mono (hsub : Subset fewer more) :
    require_minimal fewer = true → require_minimal more = true := hsub.contains

theorem below_op_pick {c d : Bool} (hcd : c = true → d = true) (roll : Bool) :
    Below (op_pick c roll stack) (op_pick d roll stack) :=
  .bind (.refl _) fun _ => .bind (.refl _) fun _ => .bind (below_stack_to_script_num hcd _ _) fun _ => .refl _

theorem below_op_unary {c d : Bool} (hcd : c = true → d = true) (op : UnaryOp) :
    Below (op_unary c op stack) (op_unary d op stack) :=
  .bind (.refl _) fun _ => .bind (.refl _) fun _ => .bind (below_stack_to_script_num hcd _ _) fun _ => .refl _

theorem below_op_binary {c d : Bool} (hcd : c = true → d = true) (op : BinaryOp) (verify : Bool) :
    Below (op_binary c op verify stack) (op_binary d op verify stack) :=
  .bind (.refl _) fun _ => .bind (.refl _) fun _ => .bind (.refl _) fun _ =>
    .bind (below_stack_to_script_num hcd _ _) fun _ => .bind (below_stack_to_script_num hcd _ _) fun _ => .refl _

theorem below_op_within {c d : Bool} (hcd : c = true → d = true) : Below (op_within c stack) (op_within d stack) :=
  .bind (.refl _) fun _ => .bind (.refl _) fun _ => .bind (.refl _) fun _ => .bind (.refl _) fun _ =>
    .bind (below_stack_to_script_num hcd _ _) fun _ => .bind (below_stack_to_script_num hcd _ _) fun _ =>
      .bind (below_stack_to_script_num hcd _ _) fun _ => .refl _

theorem below_lock_operand {c d : Bool} (hcd : c = true → d = true) :
    Below (lock_operand c stack) (lock_operand d stack) :=
  .bind (.refl _) fun _ => .bind (.refl _) fun _ => .bind (below_stack_to_script_num hcd _ _) fun _ => .refl _

theorem below_if_flag (hsub : Subset fewer more) (flag : UInt32) {x y : Run Unit} (hxy : Below x y) :
    Below (if contains fewer flag then x else pure ()) (if contains more flag then y else pure ()) :=
  below_only_if hsub.contains hxy

theorem below_op_check_lock_time_verify (hsub : Subset fewer more) (checker : SignatureChecker) :
    Below (op_check_lock_time_verify checker fewer stack) (op_check_lock_time_verify checker more stack) :=
  below_if_flag hsub _ (.bind (below_lock_operand (require_minimal_mono hsub)) fun _ => .refl _)

theorem below_op_check_sequence_verify (hsub : Subset fewer more) (checker : SignatureChecker) :
    Below (op_check_sequence_verify checker fewer stack) (op_check_sequence_verify checker more stack) :=
  below_if_flag hsub _ (.bind (below_lock_operand (require_minimal_mono hsub)) fun _ => .refl _)

theorem below_on_stack (state : State) {f g : Stack → Run Stack} (hfg : Below (f state.stack) (g state.stack)) :
    Below (on_stack state f) (on_stack state g) := .bind hfg fun _ => .refl _

end

section

variable {crypto : Crypto} {checker : SignatureChecker} {fewer more : UInt32} {sigversion : SigVersion} {script : Script}
variable (hsub : Subset fewer more)

include hsub

theorem below_drop_signature (code : Script) (vch_sig : List UInt8) :
    Below (drop_signature fewer sigversion code vch_sig) (drop_signature more sigversion code vch_sig) := by
  refine .ite (fun _ => ?_) fun _ => .refl _
  refine .bind ?_ fun _ => .refl _
  have hunless := below_unless hsub ScriptVerifyFlags.CONST_SCRIPTCODE
    (decide (0 < (find_and_delete code (Script.new.push_data vch_sig).data).2)) .SigFindAndDelete
  rw [Bool.and_comm, Bool.and_comm (contains more _)] at hunless
  exact hunless

theorem below_check_signature_encoding (sig : List UInt8) :
    Below (check_signature_encoding crypto fewer sig) (check_signature_encoding crypto more sig) := by
  have hstrict : strict_der fewer = true → strict_der more = true := by
    unfold strict_der
    rw [Bool.or_eq_true, Bool.or_eq_true, Bool.or_eq_true, Bool.or_eq_true]
    exact Or.imp (Or.imp hsub.contains hsub.contains) hsub.contains
  refine .ite (fun _ => .refl _) fun _ => ?_
  exact .bind (below_only_if hstrict (.refl _)) fun _ => .bind (below_only_if hsub.contains (.refl _)) fun _ =>
    below_only_if hsub.contains (.refl _)

theorem below_check_pubkey_encoding (pubkey : List UInt8) :
    Below (check_pubkey_encoding fewer pubkey sigversion) (check_pubkey_encoding more pubkey sigversion) := by
  refine .bind (below_only_if hsub.contains (.refl _)) fun _ => below_only_if ?_ (.refl _)
  rw [Bool.and_eq_true, Bool.and_eq_true]
  exact And.imp_left hsub.contains

theorem below_checksig_ecdsa (state : State) (vch_sig vch_pubkey : List UInt8) :
    Below (checksig_ecdsa crypto checker fewer sigversion script state vch_sig vch_pubkey)
      (checksig_ecdsa crypto checker more sigversion script state vch_sig vch_pubkey) := by
  refine .bind (.refl _) fun _ => .bind (below_drop_signature hsub _ _) fun code => ?_
  refine .bind (below_check_signature_encoding hsub _) fun _ => .bind (below_check_pubkey_encoding hsub _) fun _ => ?_
  refine .bind ?_ fun _ => .refl _
  have hunless := below_unless hsub ScriptVerifyFlags.NULLFAIL
    (!checker.check_ecdsa_signature vch_sig vch_pubkey code sigversion && !vch_sig.isEmpty) .SigNullFail
  rw [Bool.and_left_comm, Bool.and_left_comm (contains more _), ← Bool.and_assoc, ← Bool.and_assoc] at hunless
  exact hunless

theorem below_checksig_tapscript (exec_data : ScriptExecutionData) (vch_sig vch_pubkey : List UInt8) :
    Below (checksig_tapscript checker fewer sigversion exec_data vch_sig vch_pubkey)
      (checksig_tapscript checker more sigversion exec_data vch_sig vch_pubkey) := by
  refine .bind (.refl _) fun _ => .bind ?_ fun _ => .refl _
  exact .ite (fun _ => .refl _) fun _ => .ite (fun _ => .refl _) fun _ => below_discourage hsub _ _

theorem below_op_checksig (verify : Bool) (state : State) :
    Below (op_checksig crypto checker fewer sigversion script verify state)
      (op_checksig crypto checker more sigversion script verify state) := by
  refine .bind (.refl _) fun _ => .bind (.refl _) fun _ => .bind (.refl _) fun _ => .bind ?_ fun _ => .refl _
  refine .ite (fun _ => ?_) fun _ => .ite (fun _ => below_checksig_tapscript hsub _ _ _) fun _ => .refl _
  exact .bind (below_checksig_ecdsa hsub _ _ _) fun _ => .refl _

theorem below_op_checksigadd (state : State) :
    Below (op_checksigadd checker fewer sigversion state) (op_checksigadd checker more sigversion state) :=
  .bind (.refl _) fun _ => .bind (.refl _) fun _ => .bind (.refl _) fun _ => .bind (.refl _) fun _ =>
    .bind (.refl _) fun _ => .bind (below_stack_to_script_num (require_minimal_mono hsub) _ _) fun _ =>
      .bind (below_checksig_tapscript hsub _ _ _) fun _ => .refl _

theorem below_multisig_count (stack : Stack) (i bound : Nat) (e : ScriptError) :
    Below (multisig_count fewer stack i bound e) (multisig_count more stack i bound e) :=
  .bind (.refl _) fun _ => .bind (below_stack_to_script_num (require_minimal_mono hsub) _ _) fun _ => .refl _

theorem below_drop_signatures (stack : Stack) (count isig : Nat) (code : Script) :
    Below (drop_signatures fewer sigversion stack count isig code) (drop_signatures more sigversion stack count isig code) := by
  induction count generalizing isig code with
  | zero => exact .refl _
  | succ count ih => exact .bind (.refl _) fun _ => .bind (below_drop_signature hsub _ _) fun _ => ih _ _

theorem below_match_signatures (stack : Stack) (code : Script) (n_keys_remaining isig ikey n_sigs_count : Nat) :
    Below (match_signatures crypto checker fewer sigversion stack code n_keys_remaining isig ikey n_sigs_count)
      (match_signatures crypto checker more sigversion stack code n_keys_remaining isig ikey n_sigs_count) := by
  induction n_keys_remaining generalizing isig ikey n_sigs_count with
  | zero => cases n_sigs_count <;> exact .refl _
  | succ n_keys_remaining ih =>
    cases n_sigs_count with
    | zero => exact .refl _
    | succ n_sigs_count =>
      refine .bind (.refl _) fun _ => .bind (.refl _) fun _ => .bind (below_check_signature_encoding hsub _) fun _ => ?_
      refine .bind (below_check_pubkey_encoding hsub _) fun _ => ?_
      exact .ite (fun _ => .refl _) fun _ => ih _ _ _

theorem below_clean_up (f_success : Bool) (count ikey2 : Nat) (stack : Stack) :
    Below (clean_up fewer f_success count ikey2 stack) (clean_up more f_success count ikey2 stack) := by
  induction count generalizing ikey2 stack with
  | zero => exact .refl _
  | succ count ih =>
    refine .bind (below_only_if ?_ (.refl _)) fun _ => ih _ _
    rw [Bool.and_eq_true, Bool.and_eq_true, Bool.and_eq_true, Bool.and_eq_true]
    exact And.imp_left (And.imp_right hsub.contains)

theorem below_op_checkmultisig (verify : Bool) (state : State) :
    Below (op_checkmultisig crypto checker fewer sigversion script verify state)
      (op_checkmultisig crypto checker more sigversion script verify state) := by
  refine .bind (.refl _) fun _ => .bind (.refl _) fun _ => .bind (below_multisig_count hsub _ _ _ _) fun _ => ?_
  refine .bind (.refl _) fun _ => .bind (.refl _) fun _ => .bind (.refl _) fun _ => ?_
  refine .bind (below_multisig_count hsub _ _ _ _) fun _ => .bind (.refl _) fun _ => .bind (.refl _) fun _ => ?_
  refine .bind (below_drop_signatures hsub _ _ _ _) fun _ => .bind (below_match_signatures hsub _ _ _ _ _ _) fun _ => ?_
  refine .bind (below_clean_up hsub _ _ _ _) fun _ => .bind (.refl _) fun _ => .bind (.refl _) fun _ => ?_
  exact .bind (below_unless hsub _ _ _) fun _ => .refl _

theorem below_op_if (f_exec negated : Bool) (state : State) :
    Below (op_if fewer sigversion f_exec negated state) (op_if more sigversion f_exec negated state) := by
  refine .ite (fun _ => ?_) fun _ => .refl _
  refine .bind (.refl _) fun _ => .bind (.refl _) fun vch => .bind (.refl _) fun _ => .bind ?_ fun _ => .refl _
  have hunless := below_unless hsub ScriptVerifyFlags.MINIMALIF (sigversion == .WitnessV0 && !minimal_if vch) .MinimalIf
  rw [Bool.and_left_comm, Bool.and_left_comm (contains more _), ← Bool.and_assoc, ← Bool.and_assoc] at hunless
  exact hunless

theorem below_run (f_exec : Bool) (state : State) (op : Operation) :
    Below (op.run crypto checker fewer sigversion script f_exec state)
      (op.run crypto checker more sigversion script f_exec state) := by
  have hminimal := require_minimal_mono hsub
  cases op with
  | OpCheckLockTimeVerify => exact .bind (below_op_check_lock_time_verify hsub checker) fun _ => .refl _
  | OpCheckSequenceVerify => exact .bind (below_op_check_sequence_verify hsub checker) fun _ => .refl _
  | upgradable_nop => exact .bind (below_discourage hsub _ _) fun _ => .refl _
  | OpIf negated => exact below_op_if hsub f_exec negated state
  | OpPick roll => exact below_on_stack state (below_op_pick hminimal roll)
  | unary op => exact below_on_stack state (below_op_unary hminimal op)
  | binary op verify => exact below_on_stack state (below_op_binary hminimal op verify)
  | OpWithin => exact below_on_stack state (below_op_within hminimal)
  | OpCheckSig verify => exact below_op_checksig hsub verify state
  | OpCheckSigAdd => exact below_op_checksigadd hsub state
  | OpCheckMultiSig verify => exact below_op_checkmultisig hsub verify state
  | _ => exact .refl _

theorem below_perform (opcode : UInt8) (push_data : List UInt8) (state : State) :
    Below (perform crypto checker fewer sigversion script opcode push_data state)
      (perform crypto checker more sigversion script opcode push_data state) := by
  refine .ite (fun _ => ?_) fun _ => .ite (fun _ => below_run hsub _ _ _) fun _ => .refl _
  exact .bind (below_unless hsub _ _ _) fun _ => .refl _

theorem below_step (state : State) :
    Below (step crypto checker fewer sigversion script state) (step crypto checker more sigversion script state) := by
  unfold step
  cases script.get_op state.pc with
  | none => exact .refl _
  | some op =>
    obtain ⟨opcode, push_data, new_pc⟩ := op
    refine .bind (.refl _) fun _ => .bind (.refl _) fun _ => .bind (.refl _) fun _ => .bind ?_ fun _ => ?_
    · have hunless := below_unless hsub ScriptVerifyFlags.CONST_SCRIPTCODE
        (opcode == OP_CODESEPARATOR && sigversion == .Base) .OpCodeSeparator
      rw [Bool.and_comm, Bool.and_comm (contains more _)] at hunless
      exact hunless
    · exact .bind (below_perform hsub _ _ _) fun _ => .refl _

theorem below_eval_loop (fuel : Nat) (state : State) :
    Below (eval_loop crypto checker fewer sigversion script fuel state)
      (eval_loop crypto checker more sigversion script fuel state) := by
  induction fuel generalizing state with
  | zero => exact .refl _
  | succ fuel ih => exact .ite (fun _ => .bind (below_step hsub state) ih) fun _ => .refl _

theorem below_eval_script (stack : Stack) (exec_data : ScriptExecutionData) :
    Below (eval_script crypto checker fewer sigversion script stack exec_data)
      (eval_script crypto checker more sigversion script stack exec_data) :=
  .ite (fun _ => .refl _) fun _ => .bind (.refl _) fun _ => .bind (below_eval_loop hsub _ _) fun _ => .refl _

theorem below_execute_witness_script (stack : Stack) (exec_data : ScriptExecutionData) :
    Below (execute_witness_script crypto checker fewer stack script sigversion exec_data)
      (execute_witness_script crypto checker more stack script sigversion exec_data) :=
  .bind (.refl _) fun _ => .bind (.refl _) fun _ => .bind (below_eval_script hsub _ _) fun _ => .refl _

theorem below_verify_taproot (witness : Witness) (wit_program : List UInt8) :
    Below (verify_taproot crypto checker fewer witness wit_program)
      (verify_taproot crypto checker more witness wit_program) := by
  refine .bind (.refl _) fun _ => ?_
  split
  · exact .refl _
  · exact .refl _
  · refine .bind (.refl _) fun _ => .bind (.refl _) fun _ => .ite (fun _ => ?_) fun _ => below_discourage hsub _ _
    refine .bind (.refl _) fun _ => .ite (fun _ => below_discourage hsub _ _) fun _ => ?_
    exact below_execute_witness_script hsub _ _

theorem below_verify_witness_program (witness : Witness) (wit_version : Nat) (wit_program : List UInt8) (is_p2sh : Bool) :
    Below (verify_witness_program crypto checker fewer witness wit_version wit_program is_p2sh)
      (verify_witness_program crypto checker more witness wit_version wit_program is_p2sh) := by
  refine .ite (fun _ => ?_) fun _ => ?_
  · refine .ite (fun _ => ?_) fun _ => ?_
    · cases witness.stack.reverse with
      | nil => exact .refl _
      | cons script_bytes stack => exact .bind (.refl _) fun _ => below_execute_witness_script hsub _ _
    · exact .ite (fun _ => .bind (.refl _) fun _ => below_execute_witness_script hsub _ _) fun _ => .refl _
  · refine .ite (fun _ => ?_) fun _ => below_discourage hsub _ _
    exact below_if_flag hsub _ (below_verify_taproot hsub _ _)

theorem below_verify_bare_program (hflag : contains fewer ScriptVerifyFlags.WITNESS = true)
    (script_sig script_pubkey : Script) (witness : Witness) (stack : Stack) :
    Below (verify_bare_program crypto checker fewer script_sig script_pubkey witness stack)
      (verify_bare_program crypto checker more script_sig script_pubkey witness stack) := by
  rw [verify_bare_program, verify_bare_program, if_pos hflag, if_pos (hsub.contains hflag)]
  cases script_pubkey.is_witness_program with
  | none => exact .refl _
  | some program => exact .bind (.refl _) fun _ => .bind (below_verify_witness_program hsub _ _ _ _) fun _ => .refl _

theorem below_verify_nested_program (hflag : contains fewer ScriptVerifyFlags.WITNESS = true) (script_sig : Script)
    (serialized : List UInt8) (witness : Witness) (had_witness : Bool) (stack : Stack) :
    Below (verify_nested_program crypto checker fewer script_sig serialized witness had_witness stack)
      (verify_nested_program crypto checker more script_sig serialized witness had_witness stack) := by
  rw [verify_nested_program, verify_nested_program, if_pos hflag, if_pos (hsub.contains hflag)]
  cases (Script.mk serialized).is_witness_program with
  | none => exact .refl _
  | some program => exact .bind (.refl _) fun _ => .bind (below_verify_witness_program hsub _ _ _ _) fun _ => .refl _

theorem below_check_clean (witness : Witness) (had_witness : Bool) (stack : Stack) :
    Below (check_clean fewer witness had_witness stack) (check_clean more witness had_witness stack) :=
  .bind (below_only_if hsub.contains (.refl _)) fun _ => below_only_if hsub.contains (.refl _)

end

/-- Flags that stand on each other come together. -/
structure Consistent (flags : UInt32) : Prop where
  witness : contains flags ScriptVerifyFlags.WITNESS = true → contains flags ScriptVerifyFlags.P2SH = true
  taproot : contains flags ScriptVerifyFlags.TAPROOT = true → contains flags ScriptVerifyFlags.WITNESS = true
  clean_stack : contains flags ScriptVerifyFlags.CLEANSTACK = true →
    contains flags ScriptVerifyFlags.P2SH = true ∧ contains flags ScriptVerifyFlags.WITNESS = true

variable {crypto : Crypto} {checker : SignatureChecker} {fewer more : UInt32}

theorem Consistent.check_clean {flags : UInt32} (hflags : Consistent flags)
    (hwitness : contains flags ScriptVerifyFlags.WITNESS = false) (witness : Witness) (had_witness : Bool)
    (stack : Stack) : vm.check_clean flags witness had_witness stack = .ok () := by
  have hclean : contains flags ScriptVerifyFlags.CLEANSTACK = false := by
    cases hflag : contains flags ScriptVerifyFlags.CLEANSTACK with
    | false => rfl
    | true => rw [(hflags.clean_stack hflag).2] at hwitness; cases hwitness
  rw [vm.check_clean, hclean, hwitness]
  rfl

theorem verify_p2sh_restrict (hsub : Subset fewer more) (hfewer : Consistent fewer) {script_sig : Script}
    {witness : Witness} {had_witness had_witness' : Bool} {stack_copy : Stack}
    (hhad : contains fewer ScriptVerifyFlags.WITNESS = true → had_witness' = had_witness)
    (hok : verify_p2sh crypto checker more script_sig witness had_witness stack_copy = .ok ()) :
    verify_p2sh crypto checker fewer script_sig witness had_witness' stack_copy = .ok () := by
  unfold verify_p2sh at hok ⊢
  refine Below.bind (.refl _) (fun _ => .bind (.refl _) fun _ => .bind (.refl _) fun serialized => ?_) () hok
  refine .bind (below_eval_script hsub _ _) fun result => .bind (.refl _) fun _ => ?_
  cases hflag : contains fewer ScriptVerifyFlags.WITNESS with
  | true =>
    rw [hhad hflag]
    exact .bind (below_verify_nested_program hsub hflag _ _ _ _ _) fun _ => below_check_clean hsub _ _ _
  | false =>
    intro _ _
    rw [verify_nested_program, hflag]
    exact hfewer.check_clean hflag _ _ _

/-- What verifies under some flags verifies under fewer, as long as these stand on each other. -/
theorem flags_only_restrict (crypto : Crypto) (checker : SignatureChecker) (fewer more : UInt32)
    (hsub : Subset fewer more) (hfewer : Consistent fewer) (script_sig script_pubkey : Script) (witness : Witness)
    (hok : verify_script crypto checker more script_sig script_pubkey witness = .ok ()) :
    verify_script crypto checker fewer script_sig script_pubkey witness = .ok () := by
  unfold verify_script at hok ⊢
  refine Below.bind (below_unless hsub _ _ _) (fun _ => ?_) () hok
  refine .bind (below_eval_script hsub _ _) fun copied => .bind (below_eval_script hsub _ _) fun result => ?_
  refine .bind (.refl _) fun _ => ?_
  cases hflag : contains fewer ScriptVerifyFlags.WITNESS with
  | true =>
    refine .bind (below_verify_bare_program hsub hflag _ _ _ _) fun program => ?_
    -- Both sets have the flag for script hashes, so both go the same way.
    have hp2sh := hfewer.witness hflag
    rw [hp2sh, hsub.contains hp2sh]
    exact .ite (fun _ _ hp2sh => verify_p2sh_restrict hsub hfewer (fun _ => rfl) hp2sh) fun _ =>
      below_check_clean hsub _ _ _
  | false =>
    rintro ⟨⟩ hrest
    obtain ⟨program, -, hrest⟩ := bind_eq_ok_iff.mp hrest
    rw [verify_bare_program, hflag]
    change (if (contains fewer ScriptVerifyFlags.P2SH && script_pubkey.is_p2sh) = true then _ else _) = _
    split
    · next hp2sh =>
      obtain ⟨hp2sh, hscript⟩ := (Bool.and_eq_true _ _).mp hp2sh
      rw [hsub.contains hp2sh, hscript] at hrest
      refine verify_p2sh_restrict hsub hfewer (fun hwitness => ?_) hrest
      rw [hflag] at hwitness
      cases hwitness
    · exact hfewer.check_clean hflag _ _ _

theorem length_zeros_20 : (List.replicate 20 (0 : UInt8)).length = 20 := rfl
theorem length_zeros_32 : (List.replicate 32 (0 : UInt8)).length = 32 := rfl

/-- A hash that is not one, and keys that verify nothing. -/
def zero_crypto : Crypto where
  ripemd160_hash _ := ⟨List.replicate 20 0, length_zeros_20⟩
  sha1_hash _ := ⟨List.replicate 20 0, length_zeros_20⟩
  sha256_hash _ := ⟨List.replicate 32 0, length_zeros_32⟩
  hash160 _ := ⟨List.replicate 20 0, length_zeros_20⟩
  hash256 _ := ⟨List.replicate 32 0, length_zeros_32⟩
  from_der _ := none
  normalize_s sig := sig
  x_only_from_slice _ := none
  scalar_from_be_bytes _ := none
  tweak_add_check _ _ _ _ := false

theorem flags_only_restrict_op_true :
    verify_script zero_crypto BaseSignatureChecker ScriptVerifyFlags.STANDARD_SCRIPT_VERIFY_FLAGS .new ⟨[OP_1]⟩ .new =
        .ok () ∧
      verify_script zero_crypto BaseSignatureChecker ScriptVerifyFlags.MANDATORY_SCRIPT_VERIFY_FLAGS .new ⟨[OP_1]⟩ .new =
        .ok () := by
  have hok : verify_script zero_crypto BaseSignatureChecker ScriptVerifyFlags.STANDARD_SCRIPT_VERIFY_FLAGS .new ⟨[OP_1]⟩
      .new = .ok () := by rfl
  refine ⟨hok, flags_only_restrict _ _ _ _ ?_ ⟨?_, ?_, ?_⟩ _ _ _ hok⟩
  · rfl
  all_goals decide

end qubitcoin.interpreter.vm
