import Qubitcoin.Script.Bounds
import Qubitcoin.Script.Parse
import Qubitcoin.Script.Verify

/-! Scripts that only push. -/

open qubitcoin.script outcome

namespace qubitcoin.script

/-- Execution of this opcode fails, but it is not above `OP_16`. -/
def OP_RESERVED : UInt8 := 0x50

theorem is_push_only_loop_eq_true {self : Script} : ∀ {fuel pos : Nat},
    self.is_push_only_loop fuel pos = true ↔ ∀ op ∈ (self.ops_from fuel pos).1, op.opcode ≤ OP_16 := by
  intro fuel
  induction fuel with
  | zero => exact iff_of_true rfl fun _ hmem => absurd hmem List.not_mem_nil
  | succ fuel ih =>
    intro pos
    rw [Script.is_push_only_loop, Script.ops_from]
    cases hop : self.get_op pos with
    | none => exact iff_of_true rfl fun _ hmem => absurd hmem List.not_mem_nil
    | some result =>
      obtain ⟨opcode, data, new_pos⟩ := result
      dsimp only
      rw [List.forall_mem_cons]
      by_cases hlarge : OP_16 < opcode
      · rw [if_pos hlarge]
        exact iff_of_false Bool.false_ne_true fun hall => UInt8.not_le.mpr hlarge hall.1
      · rw [if_neg hlarge, ih]
        exact (and_iff_right (UInt8.not_lt.mp hlarge)).symm

theorem is_push_only_eq_true {self : Script} :
    self.is_push_only = true ↔ ∀ op ∈ self.ops.1, op.opcode ≤ OP_16 := is_push_only_loop_eq_true

end qubitcoin.script

namespace qubitcoin.interpreter.vm

/-- The failure of an opcode that cannot be executed or read. -/
def IsBadOpcode (failure : Failure ScriptError) : Prop := failure = .invalid .BadOpcode

section

variable {crypto : Crypto} {checker : SignatureChecker} {flags : UInt32} {sigversion : SigVersion} {script : Script}
variable {state : State} {opcode : UInt8} {data : List UInt8} {new_pc : Nat}

theorem no_bad_opcode_ensure {c : Bool} {e : ScriptError} (hother : e ≠ .BadOpcode) :
    Ensures IsBadOpcode (ensure c e) fun _ => True := by
  cases c with
  | true => exact .pure trivial
  | false =>
    refine .error fun hbad => hother ?_
    cases hbad
    rfl

theorem no_bad_opcode_add_u32 {x y : Nat} : Ensures IsBadOpcode (add_u32 x y) fun _ => True :=
  .ite (fun _ => .pure trivial) fun _ => .error nofun

theorem from_u8_number (hlarge : ¬ opcode ≤ OP_PUSHDATA4) (hsmall : opcode ≤ OP_16) (hreserved : opcode ≠ OP_RESERVED) :
    ∃ n, Operation.from_u8 opcode = .number n := by
  unfold Operation.from_u8
  by_cases hnumber : 0x51 ≤ opcode
  · exact ⟨_, if_pos ⟨hnumber, hsmall⟩⟩
  · have hnegative : opcode = 0x4f := by
      have hlow : 78 < opcode.toNat := UInt8.lt_iff_toNat_lt.mp (UInt8.not_le.mp hlarge)
      have hhigh : opcode.toNat < 81 := UInt8.lt_iff_toNat_lt.mp (UInt8.not_le.mp hnumber)
      have hne : opcode.toNat ≠ 80 := fun heq => hreserved (UInt8.toNat_inj.mp heq)
      exact UInt8.toNat_inj.mp (show opcode.toNat = 79 by omega)
    subst hnegative
    exact ⟨-1, rfl⟩

theorem no_bad_opcode_perform (hexec : state.vf_exec = .new) (hsmall : opcode ≤ OP_16) (hreserved : opcode ≠ OP_RESERVED) :
    Ensures IsBadOpcode (perform crypto checker flags sigversion script opcode data state) fun next =>
      next.vf_exec = .new ∧ next.pc = state.pc := by
  have htrue : state.vf_exec.all_true = true := by rw [hexec]; rfl
  unfold perform
  dsimp only
  rw [htrue]
  refine .ite (fun _ => ?_) fun hlarge => ?_
  · exact (no_bad_opcode_ensure (by decide)).bind fun _ _ => .pure ⟨hexec, rfl⟩
  · obtain ⟨n, hnumber⟩ := from_u8_number (fun hle => hlarge ⟨rfl, hle⟩) hsmall hreserved
    rw [if_pos (.inl rfl), hnumber]
    exact .pure ⟨hexec, rfl⟩

theorem no_bad_opcode_step (hexec : state.vf_exec = .new) (hop : script.get_op state.pc = some (opcode, data, new_pc))
    (hsmall : opcode ≤ OP_16) (hreserved : opcode ≠ OP_RESERVED) :
    Ensures IsBadOpcode (step crypto checker flags sigversion script state) fun next =>
      next.vf_exec = .new ∧ next.pc = new_pc := by
  unfold step
  rw [hop]
  refine (no_bad_opcode_ensure (by decide)).bind fun _ _ => ?_
  have hcount : count_op sigversion opcode { state with pc := new_pc } = pure { state with pc := new_pc } :=
    if_neg fun hcounted => UInt8.not_lt.mpr hsmall hcounted.2
  rw [hcount]
  refine (no_bad_opcode_ensure (by decide)).bind fun _ _ => ?_
  refine (no_bad_opcode_ensure (by decide)).bind fun _ _ => ?_
  have hexec_next : { state with pc := new_pc }.vf_exec = .new := hexec
  refine (no_bad_opcode_perform hexec_next hsmall hreserved).bind fun next hnext => ?_
  refine (no_bad_opcode_ensure (by decide)).bind fun _ _ => ?_
  exact no_bad_opcode_add_u32.bind fun _ _ => .pure hnext

theorem no_bad_opcode_loop : ∀ {fuel : Nat} {state : State}, state.vf_exec = .new →
    (script.ops_from fuel state.pc).2 = [] →
    (∀ op ∈ (script.ops_from fuel state.pc).1, op.opcode ≤ OP_16 ∧ op.opcode ≠ OP_RESERVED) →
    Ensures IsBadOpcode (eval_loop crypto checker flags sigversion script fuel state) fun _ => True := by
  intro fuel
  induction fuel with
  | zero => exact fun _ _ _ => .ite (fun _ => .error nofun) fun _ => .pure trivial
  | succ fuel ih =>
    intro state hexec htail hops
    rw [eval_loop]
    refine .ite (fun hpc => ?_) fun _ => .pure trivial
    rw [Script.ops_from] at htail hops
    cases hop : script.get_op state.pc with
    | none =>
      rw [hop] at htail
      have hend : script.data.length ≤ state.pc := List.drop_eq_nil_iff.mp htail
      exact absurd hpc (Nat.not_lt.mpr hend)
    | some result =>
      obtain ⟨opcode, data, new_pc⟩ := result
      rw [hop] at htail hops
      obtain ⟨⟨hsmall, hreserved⟩, hrest⟩ := List.forall_mem_cons.mp hops
      refine (no_bad_opcode_step hexec hop hsmall hreserved).bind fun next hnext => ?_
      obtain ⟨hnext_exec, rfl⟩ := hnext
      exact ih hnext_exec htail hrest

end

theorem eval_script_push_only {script : Script} (htail : script.ops.2 = [])
    (hops : ∀ op ∈ script.ops.1, op.opcode ≤ OP_16 ∧ op.opcode ≠ OP_RESERVED) (crypto : Crypto)
    (checker : SignatureChecker) (flags : UInt32) (sigversion : SigVersion) (stack : Stack)
    (exec_data : ScriptExecutionData) :
    eval_script crypto checker flags sigversion script stack exec_data ≠ fail .BadOpcode := by
  have hensures : Ensures IsBadOpcode (eval_script crypto checker flags sigversion script stack exec_data)
      fun _ => True := by
    refine .ite (fun _ => .error nofun) fun _ => ?_
    refine (no_bad_opcode_ensure (by decide)).bind fun _ _ => ?_
    have hloop : Ensures IsBadOpcode (eval_loop crypto checker flags sigversion script script.len
        (.start stack exec_data)) fun _ => True := no_bad_opcode_loop rfl htail hops
    refine hloop.bind fun final _ => ?_
    exact (no_bad_opcode_ensure (by decide)).bind fun _ _ => .pure trivial
  exact fun hbad => hensures.not_bad hbad rfl

/-- A run of push operations with a push after it that is cut short. -/
def CutShort (script : Script) : Prop := (∀ op ∈ script.ops.1, op.opcode ≤ OP_16) ∧ script.ops.2 ≠ []

/-- A script that is not cut short is accepted if and only if it parses to its end, as operations
    that push; where none of them is the reserved one, it is evaluated without a bad opcode. -/
theorem is_push_only_exact (script : Script) (hcomplete : ¬ CutShort script) :
    (script.is_push_only = true ↔ script.ops.2 = [] ∧ ∀ op ∈ script.ops.1, op.opcode ≤ OP_16) ∧
      (script.is_push_only = true → (∀ op ∈ script.ops.1, op.opcode ≠ OP_RESERVED) →
        ∀ crypto checker flags sigversion stack exec_data,
          eval_script crypto checker flags sigversion script stack exec_data ≠ fail .BadOpcode) := by
  have hpushes : script.is_push_only = true ↔ script.ops.2 = [] ∧ ∀ op ∈ script.ops.1, op.opcode ≤ OP_16 := by
    rw [is_push_only_eq_true]
    refine ⟨fun hops => ⟨?_, hops⟩, And.right⟩
    by_contra htail
    exact hcomplete ⟨hops, htail⟩
  refine ⟨hpushes, fun haccepted hreserved => ?_⟩
  obtain ⟨htail, hops⟩ := hpushes.mp haccepted
  exact eval_script_push_only htail fun op hmem => ⟨hops op hmem, hreserved op hmem⟩

/-- Two pushes, of one byte and of a small number. -/
theorem is_push_only_exact_pushes : (Script.mk [0x01, 0x07, OP_16]).is_push_only = true ∧
    eval_script .unused BaseSignatureChecker 0 .Base ⟨[0x01, 0x07, OP_16]⟩ [] .default ≠ fail .BadOpcode := by
  have hexact := is_push_only_exact ⟨[0x01, 0x07, OP_16]⟩ (fun hcut => hcut.2 rfl)
  have haccepted := hexact.1.mpr ⟨rfl, by decide⟩
  exact ⟨haccepted, hexact.2 haccepted (by decide) _ _ _ _ _ _⟩

/-- A push that is cut short, and the reserved opcode: both are accepted, and both are bad. -/
theorem is_push_only_not_exact :
    ((Script.mk [0x01]).is_push_only = true ∧ (Script.mk [0x01]).ops.2 ≠ [] ∧
      eval_script .unused BaseSignatureChecker 0 .Base ⟨[0x01]⟩ [] .default = fail .BadOpcode) ∧
    (Script.mk [OP_RESERVED]).is_push_only = true ∧ ¬ CutShort ⟨[OP_RESERVED]⟩ ∧
      eval_script .unused BaseSignatureChecker 0 .Base ⟨[OP_RESERVED]⟩ [] .default = fail .BadOpcode :=
  ⟨⟨rfl, by decide, rfl⟩, rfl, fun hcut => hcut.2 rfl, rfl⟩

end qubitcoin.interpreter.vm

/-! The two evaluators of scripts that only push. -/

namespace qubitcoin.interpreter.vm

/-- The failure of the evaluator is a script error. -/
def SameError (failure : Failure ScriptError) (e : ScriptError) : Prop := failure = .invalid e

/-- The stacks of the evaluator are those of the loop with the push operations, and no branch is open. -/
structure Mirrors (state : State) (machine : Machine) : Prop where
  stack : machine.stack = state.stack.reverse
  altstack : machine.altstack = [] ∧ state.altstack = []
  vf_exec : machine.vf_exec = [] ∧ state.vf_exec = .new

section

variable {crypto : Crypto} {checker : SignatureChecker} {flags : UInt32} {operations : Operations} {script : Script}
variable {state : State} {machine : Machine} {opcode : UInt8} {data : List UInt8} {new_pc : Nat}

theorem alike_ensure {c d : Bool} (hsame : c = d) (e : ScriptError) :
    Alike SameError (fun _ _ => c = true) (ensure c e) (require d e) := by
  subst hsame
  cases c with
  | true => exact rfl
  | false => exact rfl

theorem Mirrors.push (hmirrors : Mirrors state machine) (value : StackValue) :
    Mirrors { state with stack := value :: state.stack } (machine.push value) := by
  refine ⟨?_, hmirrors.altstack, hmirrors.vf_exec⟩
  rw [List.reverse_cons, ← hmirrors.stack]
  rfl

theorem Mirrors.perform (hmirrors : Mirrors state machine) (hsmall : opcode ≤ OP_16) :
    Alike SameError (fun next after => Mirrors next after ∧ next.pc = state.pc ∧ next.opcode_pos = state.opcode_pos)
      (perform crypto checker flags .Base script opcode data state)
      (interpreter.perform operations flags machine opcode data) := by
  have htrue : state.vf_exec.all_true = true := by rw [hmirrors.vf_exec.2]; rfl
  have hexec : machine.vf_exec.all id = true := by rw [hmirrors.vf_exec.1]; rfl
  unfold vm.perform interpreter.perform
  dsimp only
  rw [htrue, hexec]
  by_cases hdata : opcode ≤ OP_PUSHDATA4
  · rw [if_pos ⟨rfl, hdata⟩, if_pos ⟨rfl, hdata⟩]
    exact (alike_ensure rfl .MinimalData).bind fun _ _ _ => ⟨hmirrors.push data, rfl, rfl⟩
  · have hnot : ¬ (true = true ∧ opcode ≤ OP_PUSHDATA4) := fun hboth => hdata hboth.2
    rw [if_neg hnot, if_neg hnot, if_pos (Or.inl rfl), if_pos (Or.inl rfl)]
    by_cases hreserved : opcode = OP_RESERVED
    · subst hreserved
      exact rfl
    · by_cases hnegative : opcode = OP_1NEGATE
      · subst hnegative
        exact ⟨hmirrors.push _, rfl, rfl⟩
      · have hnumber : OP_1 ≤ opcode := by
          have hlow : 78 < opcode.toNat := UInt8.lt_iff_toNat_lt.mp (UInt8.not_le.mp hdata)
          have hone : opcode.toNat ≠ 79 := fun heq => hnegative (UInt8.toNat_inj.mp heq)
          have htwo : opcode.toNat ≠ 80 := fun heq => hreserved (UInt8.toNat_inj.mp heq)
          exact UInt8.le_iff_toNat_le.mpr (show 81 ≤ opcode.toNat by omega)
        rw [if_neg hnegative, if_pos ⟨hnumber, hsmall⟩]
        have hop : Operation.from_u8 opcode = .number (opcode.toNat - 0x51 + 1) := if_pos ⟨hnumber, hsmall⟩
        rw [hop]
        exact ⟨hmirrors.push _, rfl, rfl⟩

theorem Mirrors.step (hmirrors : Mirrors state machine) (hop : script.get_op state.pc = some (opcode, data, new_pc))
    (hsmall : opcode ≤ OP_16) (hcount : state.opcode_pos + 1 < 2 ^ 32) :
    Alike SameError (fun next after => Mirrors next after ∧ next.pc = new_pc ∧ next.opcode_pos = state.opcode_pos + 1)
      (step crypto checker flags .Base script state) (execute operations flags machine opcode data) := by
  have hcodeseparator : (opcode == OP_CODESEPARATOR) = false := beq_eq_false_iff_ne.mpr fun heq => by
    rw [heq] at hsmall
    exact absurd hsmall (by decide)
  unfold vm.step execute
  rw [hop]
  refine (alike_ensure rfl .PushSize).bind fun _ _ _ => ?_
  have hcounted : count_op .Base opcode { state with pc := new_pc } = pure { state with pc := new_pc } :=
    if_neg fun hcounted => UInt8.not_lt.mpr hsmall hcounted.2
  have hcount_operation : count_operation machine opcode = .ok machine := if_neg (UInt8.not_lt.mpr hsmall)
  rw [hcounted, hcount_operation]
  refine (alike_ensure rfl .DisabledOpcode).bind fun _ _ _ => ?_
  refine (alike_ensure (by rw [hcodeseparator]; rfl) .OpCodeSeparator).bind fun _ _ _ => ?_
  have hmoved : Mirrors { state with pc := new_pc } machine := ⟨hmirrors.stack, hmirrors.altstack, hmirrors.vf_exec⟩
  refine (hmoved.perform hsmall).bind fun next after hnext => ?_
  obtain ⟨hafter, hpc, hpos⟩ := hnext
  have hsize : decide (next.stack.length + next.altstack.length ≤ MAX_STACK_SIZE) =
      decide (after.stack.length + after.altstack.length ≤ MAX_STACK_SIZE) := by
    rw [hafter.stack, List.length_reverse, hafter.altstack.1, hafter.altstack.2]
  refine (alike_ensure hsize .StackSize).bind fun _ _ _ => ?_
  have hpos : next.opcode_pos = state.opcode_pos := hpos
  have hadd : add_u32 next.opcode_pos 1 = .ok (state.opcode_pos + 1) := by
    rw [hpos]
    exact if_pos hcount
  rw [hadd]
  exact ⟨⟨hafter.stack, hafter.altstack, hafter.vf_exec⟩, hpc, rfl⟩

theorem Mirrors.eval_loop {fuel : Nat} : ∀ {state : State} {machine : Machine}, Mirrors state machine →
    script.is_push_only_loop fuel state.pc = true → script.len ≤ state.pc + fuel → state.opcode_pos + fuel < 2 ^ 32 →
    Alike SameError Mirrors (eval_loop crypto checker flags .Base script fuel state)
      (interpreter.eval_loop operations flags script fuel state.pc machine) := by
  induction fuel with
  | zero =>
    intro state machine hmirrors _ hend _
    rw [vm.eval_loop, interpreter.eval_loop, if_neg (by omega)]
    exact hmirrors
  | succ fuel ih =>
    intro state machine hmirrors hpush hend hcount
    rw [vm.eval_loop, interpreter.eval_loop]
    by_cases hpc : state.pc < script.len
    · rw [if_pos hpc, if_pos hpc]
      rw [Script.is_push_only_loop] at hpush
      cases hop : script.get_op state.pc with
      | none =>
        unfold vm.step
        rw [hop]
        exact rfl
      | some result =>
        obtain ⟨opcode, data, new_pc⟩ := result
        rw [hop] at hpush
        dsimp only at hpush ⊢
        split at hpush
        · cases hpush
        · next hsmall =>
          refine (hmirrors.step hop (UInt8.not_lt.mp hsmall) (by omega)).bind fun next after hnext => ?_
          obtain ⟨hafter, rfl, hpos⟩ := hnext
          have hforward := (get_op_bounds hop).1
          exact ih hafter hpush (by omega) (by omega)
    · rw [if_neg hpc, if_neg hpc]
      exact hmirrors

end

/-- On a script that only pushes the evaluator gives the stack, or the error, of the loop with the push operations. -/
theorem eval_script_mirrors (crypto : Crypto) (checker : SignatureChecker) (flags : UInt32) (operations : Operations)
    {script : Script} (hpush : script.is_push_only = true) (stack : Stack) (exec_data : ScriptExecutionData) :
    Alike SameError (fun result values => values = result.1.reverse)
      (eval_script crypto checker flags .Base script stack exec_data)
      (interpreter.eval_script operations flags stack.reverse script) := by
  unfold vm.eval_script interpreter.eval_script
  rw [if_neg (by decide)]
  have hsize : (!(SigVersion.Base.before_taproot && decide (MAX_SCRIPT_SIZE < script.len))) =
      decide (script.len ≤ MAX_SCRIPT_SIZE) := by
    rw [show SigVersion.Base.before_taproot = true from rfl, Bool.true_and, ← decide_not]
    exact decide_eq_decide.mpr Nat.not_lt
  rw [hsize]
  refine (alike_ensure rfl .ScriptSize).bind fun _ _ hlen => ?_
  have hlen : script.len ≤ 10000 := of_decide_eq_true hlen
  have hstart : Mirrors (.start stack exec_data) ⟨stack.reverse, [], [], 0⟩ := ⟨rfl, ⟨rfl, rfl⟩, rfl, rfl⟩
  refine (hstart.eval_loop hpush (Nat.le_of_eq (Nat.zero_add _).symm) ?_).bind fun next after hnext => ?_
  · exact (Nat.zero_add _).symm ▸ (by omega : script.len < 2 ^ 32)
  · have hempty : next.vf_exec.empty = after.vf_exec.isEmpty := by
      rw [hnext.vf_exec.1, hnext.vf_exec.2]
      rfl
    exact (alike_ensure hempty .UnbalancedConditional).bind fun _ _ _ => hnext.stack

/-- The redeem script is the script that is run for a pay-to-script-hash output, over what is left of the stack. -/
theorem verify_script_runs_redeem_script {crypto : Crypto} {checker : SignatureChecker} {flags : UInt32}
    (operations : Operations) {script_sig script_pubkey : Script} {witness : transaction.Witness}
    (hp2sh : script_pubkey.is_p2sh = true) (hflag : contains flags ScriptVerifyFlags.P2SH = true)
    (hverify : verify_script crypto checker flags script_sig script_pubkey witness = .ok ()) :
    ∃ redeem stack result, redeem_script operations flags script_sig = some redeem ∧
      (eval_script crypto checker flags .Base script_sig [] .default).map Prod.fst = .ok (redeem.data :: stack) ∧
      (eval_script crypto checker flags .Base redeem stack .default).map Prod.fst = .ok result ∧
      check_result result = .ok () := by
  unfold verify_script at hverify
  obtain ⟨_, _, hverify⟩ := bind_eq_ok_iff.mp hverify
  obtain ⟨⟨stack_copy, copied⟩, hcopy, hverify⟩ := bind_eq_ok_iff.mp hverify
  obtain ⟨_, _, hverify⟩ := bind_eq_ok_iff.mp hverify
  obtain ⟨_, _, hverify⟩ := bind_eq_ok_iff.mp hverify
  obtain ⟨⟨had_witness, rest⟩, _, hverify⟩ := bind_eq_ok_iff.mp hverify
  dsimp only at hverify
  rw [hflag, hp2sh, Bool.and_self, if_pos rfl] at hverify
  unfold verify_p2sh at hverify
  obtain ⟨_, hpush, hverify⟩ := bind_eq_ok_iff.mp hverify
  have hpush := require_eq_ok.mp hpush
  obtain ⟨_, hsome, hverify⟩ := bind_eq_ok_iff.mp hverify
  obtain ⟨serialized, htop, hverify⟩ := bind_eq_ok_iff.mp hverify
  obtain ⟨⟨result, data⟩, hresult, hverify⟩ := bind_eq_ok_iff.mp hverify
  obtain ⟨_, hcheck, _⟩ := bind_eq_ok_iff.mp hverify
  cases stack_copy with
  | nil => cases htop
  | cons value stack =>
    cases htop
    refine ⟨⟨serialized⟩, stack, result, ?_, congrArg (Except.map Prod.fst) hcopy, congrArg (Except.map Prod.fst) hresult, hcheck⟩
    obtain ⟨values, hvalues, hreverse⟩ :=
      (eval_script_mirrors crypto checker flags operations hpush [] .default).of_ok hcopy
    rw [List.reverse_nil] at hvalues
    unfold redeem_script
    rw [if_pos hpush, hvalues]
    dsimp only
    rw [hreverse, List.reverse_cons, List.getLast?_concat]
    rfl

end qubitcoin.interpreter.vm
