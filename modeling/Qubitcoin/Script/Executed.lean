import Qubitcoin.Script.Verify

/-! The opcodes that a run executes, and the runs that `verify_script` is made of. -/

open qubitcoin script transaction

namespace qubitcoin.interpreter.vm

def OP_CHECKLOCKTIMEVERIFY : UInt8 := 0xb1
def OP_CHECKSEQUENCEVERIFY : UInt8 := 0xb2

variable (crypto : Crypto) (checker : SignatureChecker) (flags : UInt32) (sigversion : SigVersion) (script : Script)

/-- The run comes to an opcode that is not skipped, in a state. -/
structure Reaches (start : State) (opcode : UInt8) (state : State) : Prop where
  boundary : Boundary crypto checker flags sigversion script start state
  at_opcode : ∃ push_data new_pc, script.get_op state.pc = some (opcode, push_data, new_pc)
  not_skipped : state.vf_exec.all_true = true

/-- The run executes an opcode that has a lock time as its operand, and goes on after it. -/
def Executes (start : State) (opcode : UInt8) (n : Int) : Prop :=
  ∃ state next, Reaches crypto checker flags sigversion script start opcode state ∧
    lock_operand (require_minimal flags) state.stack = .ok n ∧
    step crypto checker flags sigversion script state = .ok next

variable {crypto checker flags sigversion script}

theorem Reaches.in_script {start state : State} {opcode : UInt8}
    (hreaches : Reaches crypto checker flags sigversion script start opcode state) : state.pc < script.len := by
  obtain ⟨push_data, new_pc, hget⟩ := hreaches.at_opcode
  by_contra hend
  have hnil : script.data.drop state.pc = [] := List.drop_eq_nil_of_le (Nat.le_of_not_lt hend)
  rw [Script.get_op, hnil] at hget
  cases hget

theorem eval_loop_of_boundary {start state final : State} {fuel : Nat}
    (hrun : eval_loop crypto checker flags sigversion script fuel start = .ok final)
    (hboundary : Boundary crypto checker flags sigversion script start state) :
    ∃ fuel, eval_loop crypto checker flags sigversion script fuel state = .ok final := by
  induction hboundary with
  | start => exact ⟨fuel, hrun⟩
  | step _ hpc hstep ih =>
    obtain ⟨fuel, hrun⟩ := ih
    cases fuel with
    | zero =>
      rw [eval_loop, if_pos hpc] at hrun
      cases hrun
    | succ fuel =>
      rw [eval_loop, if_pos hpc, hstep] at hrun
      exact ⟨fuel, hrun⟩

theorem Reaches.step_ok {stack : Stack} {exec_data : ScriptExecutionData} {result : Stack × ScriptExecutionData}
    {opcode : UInt8} {state : State} (heval : eval_script crypto checker flags sigversion script stack exec_data = .ok result)
    (hreaches : Reaches crypto checker flags sigversion script (.start stack exec_data) opcode state) :
    ∃ next, step crypto checker flags sigversion script state = .ok next := by
  unfold eval_script at heval
  split at heval
  · cases heval
  · obtain ⟨_, -, heval⟩ := bind_eq_ok_iff.mp heval
    obtain ⟨final, hrun, -⟩ := bind_eq_ok_iff.mp heval
    obtain ⟨fuel, hrun⟩ := eval_loop_of_boundary hrun hreaches.boundary
    have hpc := hreaches.in_script
    cases fuel with
    | zero =>
      rw [eval_loop, if_pos hpc] at hrun
      cases hrun
    | succ fuel =>
      rw [eval_loop, if_pos hpc] at hrun
      obtain ⟨next, hnext, -⟩ := bind_eq_ok_iff.mp hrun
      exact ⟨next, hnext⟩

theorem count_op_ok {opcode : UInt8} {state next : State} (hcount : count_op sigversion opcode state = .ok next) :
    next.stack = state.stack ∧ next.vf_exec = state.vf_exec := by
  unfold count_op at hcount
  split at hcount
  · obtain ⟨op_count, -, hcount⟩ := bind_eq_ok_iff.mp hcount
    obtain ⟨_, -, hcount⟩ := bind_eq_ok_iff.mp hcount
    cases hcount
    exact ⟨rfl, rfl⟩
  · cases hcount
    exact ⟨rfl, rfl⟩

theorem Reaches.performs {start state next : State} {opcode : UInt8} (hpush : OP_PUSHDATA4 < opcode)
    (hreaches : Reaches crypto checker flags sigversion script start opcode state)
    (hstep : step crypto checker flags sigversion script state = .ok next) :
    ∃ before after, before.stack = state.stack ∧
      (Operation.from_u8 opcode).run crypto checker flags sigversion script true before = .ok after := by
  obtain ⟨push_data, new_pc, hget⟩ := hreaches.at_opcode
  rw [step, hget] at hstep
  obtain ⟨_, -, hstep⟩ := bind_eq_ok_iff.mp hstep
  obtain ⟨before, hcount, hstep⟩ := bind_eq_ok_iff.mp hstep
  obtain ⟨_, -, hstep⟩ := bind_eq_ok_iff.mp hstep
  obtain ⟨_, -, hstep⟩ := bind_eq_ok_iff.mp hstep
  obtain ⟨after, hperform, -⟩ := bind_eq_ok_iff.mp hstep
  obtain ⟨hstack, hexec⟩ := count_op_ok hcount
  have htrue : before.vf_exec.all_true = true := (congrArg _ hexec).trans hreaches.not_skipped
  rw [perform, htrue] at hperform
  rw [if_neg (fun hle => absurd hle.2 (UInt8.not_le.mpr hpush)), if_pos (.inl rfl)] at hperform
  exact ⟨before, after, hstack, hperform⟩

theorem Executes.check_lock_time {start : State} {n : Int}
    (hflag : contains flags ScriptVerifyFlags.CHECKLOCKTIMEVERIFY = true)
    (hexecutes : Executes crypto checker flags sigversion script start OP_CHECKLOCKTIMEVERIFY n) :
    0 ≤ n ∧ checker.check_lock_time n = true := by
  obtain ⟨state, next, hreaches, hoperand, hstep⟩ := hexecutes
  obtain ⟨before, after, hstack, hrun⟩ := hreaches.performs (by decide) hstep
  obtain ⟨_, hcheck, -⟩ := bind_eq_ok_iff.mp hrun
  rw [hstack, op_check_lock_time_verify, if_pos hflag, hoperand] at hcheck
  refine ⟨?_, require_eq_ok.mp hcheck⟩
  obtain ⟨_, -, hoperand⟩ := bind_eq_ok_iff.mp hoperand
  obtain ⟨_, -, hoperand⟩ := bind_eq_ok_iff.mp hoperand
  obtain ⟨_, -, hoperand⟩ := bind_eq_ok_iff.mp hoperand
  obtain ⟨_, hlow, hoperand⟩ := bind_eq_ok_iff.mp hoperand
  cases hoperand
  exact of_decide_eq_true (require_eq_ok.mp hlow)

theorem Executes.check_sequence {start : State} {n : Int}
    (hflag : contains flags ScriptVerifyFlags.CHECKSEQUENCEVERIFY = true) (henabled : sequence_disabled n = false)
    (hexecutes : Executes crypto checker flags sigversion script start OP_CHECKSEQUENCEVERIFY n) :
    checker.check_sequence n = true := by
  obtain ⟨state, next, hreaches, hoperand, hstep⟩ := hexecutes
  obtain ⟨before, after, hstack, hrun⟩ := hreaches.performs (by decide) hstep
  obtain ⟨_, hcheck, -⟩ := bind_eq_ok_iff.mp hrun
  rw [hstack, op_check_sequence_verify, if_pos hflag, hoperand] at hcheck
  change (if sequence_disabled n = true then _ else _) = _ at hcheck
  rw [henabled, if_neg Bool.false_ne_true] at hcheck
  exact require_eq_ok.mp hcheck

section

variable (crypto : Crypto) (checker : SignatureChecker) (flags : UInt32) (script_sig script_pubkey : Script)
variable (witness : Witness)

/-- The script that runs for a witness program, with its stack and its execution data. -/
inductive WitnessRun : (wit_version : Nat) → (wit_program : List UInt8) → (is_p2sh : Bool) → SigVersion → Script →
    Stack → ScriptExecutionData → Prop where
  | script_hash {wit_program script_bytes : List UInt8} {stack : Stack} {is_p2sh : Bool}
    (hlength : wit_program.length = 32) (hstack : witness.stack.reverse = script_bytes :: stack) :
    WitnessRun 0 wit_program is_p2sh .WitnessV0 ⟨script_bytes⟩ stack .default
  | key_hash {wit_program : List UInt8} {is_p2sh : Bool} (hlength : wit_program.length = 20) :
    WitnessRun 0 wit_program is_p2sh .WitnessV0 (build_p2pkh wit_program) witness.stack.reverse .default
  | tapscript {wit_program control script : List UInt8} {stack : Stack} {exec_data : ScriptExecutionData}
    (hflag : contains flags ScriptVerifyFlags.TAPROOT = true) (hlength : wit_program.length = 32)
    (hstack : take_annex crypto witness.stack = (control :: script :: stack, exec_data))
    (hleaf : control.getD 0 0 &&& TAPROOT_LEAF_MASK = TAPROOT_LEAF_TAPSCRIPT)
    (hrun : has_op_success ⟨script⟩ script.length 0 = .ok false) :
    WitnessRun 1 wit_program false .Tapscript ⟨script⟩ stack { exec_data with
      tapleaf_hash := compute_tapleaf_hash crypto (control.getD 0 0 &&& TAPROOT_LEAF_MASK) script
      tapleaf_hash_init := true
      validation_weight_left := compute_witness_size witness.stack + VALIDATION_WEIGHT_OFFSET
      validation_weight_left_init := true }

/-- The evaluations that the verification of an input makes: of its script and the script it
    spends, of a redeem script, and of the scripts of a witness program, bare or nested. -/
inductive Evaluated : SigVersion → Script → Stack → ScriptExecutionData → Prop where
  | script_sig : Evaluated .Base script_sig [] .default
  | script_pubkey {stack_copy : Stack} {exec_data : ScriptExecutionData}
    (hsig : eval_script crypto checker flags .Base script_sig [] .default = .ok (stack_copy, exec_data)) :
    Evaluated .Base script_pubkey stack_copy .default
  | redeem_script {serialized : List UInt8} {stack : Stack} {exec_data : ScriptExecutionData}
    (hflag : contains flags ScriptVerifyFlags.P2SH = true) (hp2sh : script_pubkey.is_p2sh = true)
    (hsig : eval_script crypto checker flags .Base script_sig [] .default = .ok (serialized :: stack, exec_data)) :
    Evaluated .Base ⟨serialized⟩ stack .default
  | bare_program {wit_version : Nat} {wit_program : List UInt8} {sigversion : SigVersion} {script : Script}
    {stack : Stack} {exec_data : ScriptExecutionData} (hflag : contains flags ScriptVerifyFlags.WITNESS = true)
    (hprogram : script_pubkey.is_witness_program = some (wit_version, wit_program))
    (hrun : WitnessRun crypto flags witness wit_version wit_program false sigversion script stack exec_data) :
    Evaluated sigversion script stack exec_data
  | nested_program {serialized : List UInt8} {rest : Stack} {sig_data : ScriptExecutionData} {wit_version : Nat}
    {wit_program : List UInt8} {sigversion : SigVersion} {script : Script} {stack : Stack}
    {exec_data : ScriptExecutionData} (hwitness : contains flags ScriptVerifyFlags.WITNESS = true)
    (hflag : contains flags ScriptVerifyFlags.P2SH = true) (hp2sh : script_pubkey.is_p2sh = true)
    (hsig : eval_script crypto checker flags .Base script_sig [] .default = .ok (serialized :: rest, sig_data))
    (hprogram : (Script.mk serialized).is_witness_program = some (wit_version, wit_program))
    (hrun : WitnessRun crypto flags witness wit_version wit_program true sigversion script stack exec_data) :
    Evaluated sigversion script stack exec_data

end

section

variable {script_sig script_pubkey : Script} {witness : Witness} {stack : Stack} {exec_data : ScriptExecutionData}

theorem execute_witness_script_ok
    (hexecute : execute_witness_script crypto checker flags stack script sigversion exec_data = .ok ()) :
    ∃ result, eval_script crypto checker flags sigversion script stack exec_data = .ok result := by
  obtain ⟨_, -, hexecute⟩ := bind_eq_ok_iff.mp hexecute
  obtain ⟨_, -, hexecute⟩ := bind_eq_ok_iff.mp hexecute
  obtain ⟨result, heval, -⟩ := bind_eq_ok_iff.mp hexecute
  exact ⟨result, heval⟩

theorem WitnessRun.eval_ok {wit_version : Nat} {wit_program : List UInt8} {is_p2sh : Bool}
    (hrun : WitnessRun crypto flags witness wit_version wit_program is_p2sh sigversion script stack exec_data)
    (hverify : verify_witness_program crypto checker flags witness wit_version wit_program is_p2sh = .ok ()) :
    ∃ result, eval_script crypto checker flags sigversion script stack exec_data = .ok result := by
  cases hrun with
  | script_hash hlength hstack =>
    rw [verify_witness_program, if_pos rfl, if_pos hlength, hstack] at hverify
    obtain ⟨_, -, hexecute⟩ := bind_eq_ok_iff.mp hverify
    exact execute_witness_script_ok hexecute
  | key_hash hlength =>
    rw [verify_witness_program, if_pos rfl, if_neg (by omega), if_pos hlength] at hverify
    obtain ⟨_, -, hexecute⟩ := bind_eq_ok_iff.mp hverify
    exact execute_witness_script_ok hexecute
  | tapscript hflag hlength hstack hleaf hnone =>
    rw [verify_witness_program, if_neg Nat.one_ne_zero, if_pos ⟨rfl, hlength, rfl⟩, if_pos hflag, verify_taproot,
      hstack] at hverify
    obtain ⟨_, -, hverify⟩ := bind_eq_ok_iff.mp hverify
    obtain ⟨_, -, hverify⟩ := bind_eq_ok_iff.mp hverify
    obtain ⟨_, -, hverify⟩ := bind_eq_ok_iff.mp hverify
    rw [if_pos hleaf, hnone] at hverify
    exact execute_witness_script_ok hverify

theorem Evaluated.eval_ok
    (hevaluated : Evaluated crypto checker flags script_sig script_pubkey witness sigversion script stack exec_data)
    (hverify : verify_script crypto checker flags script_sig script_pubkey witness = .ok ()) :
    ∃ result, eval_script crypto checker flags sigversion script stack exec_data = .ok result := by
  obtain ⟨_, -, hverify⟩ := bind_eq_ok_iff.mp hverify
  obtain ⟨⟨stack_copy, copy_data⟩, hcopy, hverify⟩ := bind_eq_ok_iff.mp hverify
  obtain ⟨result, hpubkey, hverify⟩ := bind_eq_ok_iff.mp hverify
  obtain ⟨_, -, hverify⟩ := bind_eq_ok_iff.mp hverify
  obtain ⟨⟨had_witness, left⟩, hbare, hverify⟩ := bind_eq_ok_iff.mp hverify
  have hredeem : ∀ {serialized : List UInt8} {rest : Stack} {sig_data : ScriptExecutionData},
      contains flags ScriptVerifyFlags.P2SH = true → script_pubkey.is_p2sh = true →
      eval_script crypto checker flags .Base script_sig [] .default = .ok (serialized :: rest, sig_data) →
      ∃ result nested, eval_script crypto checker flags .Base ⟨serialized⟩ rest .default = .ok result ∧
        verify_nested_program crypto checker flags script_sig serialized witness had_witness result.1 = .ok nested := by
    intro serialized rest sig_data hflag hp2sh hsig
    rw [hcopy] at hsig
    cases hsig
    dsimp only at hverify
    rw [hflag, hp2sh, Bool.and_self, if_pos rfl] at hverify
    obtain ⟨_, -, hverify⟩ := bind_eq_ok_iff.mp hverify
    obtain ⟨_, -, hverify⟩ := bind_eq_ok_iff.mp hverify
    obtain ⟨_, htop, hverify⟩ := bind_eq_ok_iff.mp hverify
    cases htop
    obtain ⟨result, heval, hverify⟩ := bind_eq_ok_iff.mp hverify
    obtain ⟨_, -, hverify⟩ := bind_eq_ok_iff.mp hverify
    obtain ⟨nested, hnested, -⟩ := bind_eq_ok_iff.mp hverify
    exact ⟨result, nested, heval, hnested⟩
  cases hevaluated with
  | script_sig => exact ⟨_, hcopy⟩
  | script_pubkey hsig =>
    rw [hcopy] at hsig
    cases hsig
    exact ⟨result, hpubkey⟩
  | redeem_script hflag hp2sh hsig =>
    obtain ⟨result, _, heval, -⟩ := hredeem hflag hp2sh hsig
    exact ⟨result, heval⟩
  | bare_program hflag hprogram hrun =>
    rw [verify_bare_program, if_pos hflag, hprogram] at hbare
    obtain ⟨_, -, hbare⟩ := bind_eq_ok_iff.mp hbare
    obtain ⟨_, hprogram, -⟩ := bind_eq_ok_iff.mp hbare
    exact hrun.eval_ok hprogram
  | nested_program hwitness hflag hp2sh hsig hprogram hrun =>
    obtain ⟨_, _, -, hnested⟩ := hredeem hflag hp2sh hsig
    rw [verify_nested_program, if_pos hwitness, hprogram] at hnested
    obtain ⟨_, -, hnested⟩ := bind_eq_ok_iff.mp hnested
    obtain ⟨_, hprogram, -⟩ := bind_eq_ok_iff.mp hnested
    exact hrun.eval_ok hprogram

end

end qubitcoin.interpreter.vm
