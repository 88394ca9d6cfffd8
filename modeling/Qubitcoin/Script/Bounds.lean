import Qubitcoin.Script.Safety

/-! The limits of the evaluator over whole runs: it never panics, and the stacks stay within
    their limits from opcode to opcode. -/

open qubitcoin.script outcome

namespace qubitcoin.interpreter.vm

/-- The counters between two opcodes. No more branches are open than opcodes were read, and
    every opcode is at least one byte long. -/
structure Counted (script : Script) (state : State) : Prop where
  short : script.len < 2 ^ 32
  inside : state.pc ≤ script.len
  position : state.opcode_pos ≤ state.pc
  branches : state.vf_exec.stack_size ≤ state.opcode_pos
  ops : state.op_count ≤ MAX_OPS_PER_SCRIPT
  code_begins : state.pbegincodehash ≤ script.len
  weight : Chargeable state.exec_data

/-- The counters while an opcode is executed: `pc` is behind it. -/
structure Running (script : Script) (state : State) : Prop extends Counted script state where
  behind : state.opcode_pos < state.pc

/-- What an opcode leaves: no value is made that is larger than the limit, and the counters
    stay in bounds. -/
structure Executed (counted : Prop) (script : Script) (state next : State) : Prop where
  main : From (state.stack ++ state.altstack) next.stack
  alt : From (state.stack ++ state.altstack) next.altstack
  pc : next.pc = state.pc
  opcode_pos : next.opcode_pos = state.opcode_pos
  branches : counted → next.vf_exec.stack_size ≤ state.opcode_pos + 1
  ops : counted → next.op_count ≤ MAX_OPS_PER_SCRIPT
  code_begins : counted → next.pbegincodehash ≤ script.len
  weight : counted → Chargeable next.exec_data

section

variable {counted : Prop} {script : Script} {state : State}

theorem from_main : From (state.stack ++ state.altstack) state.stack :=
  fun _ hmem => .inl (List.mem_append_left _ hmem)

theorem from_alt : From (state.stack ++ state.altstack) state.altstack :=
  fun _ hmem => .inl (List.mem_append_right _ hmem)

theorem Executed.of_stacks (hrunning : counted → Running script state) {stack altstack : Stack}
    (hmain : From (state.stack ++ state.altstack) stack) (halt : From (state.stack ++ state.altstack) altstack) :
    Executed counted script state { state with stack, altstack } where
  main := hmain
  alt := halt
  pc := rfl
  opcode_pos := rfl
  branches hcounted := (hrunning hcounted).branches.trans (Nat.le_succ _)
  ops hcounted := (hrunning hcounted).ops
  code_begins hcounted := (hrunning hcounted).code_begins
  weight hcounted := (hrunning hcounted).weight

theorem Executed.refl (hrunning : counted → Running script state) : Executed counted script state state :=
  .of_stacks hrunning from_main from_alt

theorem Executed.of_stack (hrunning : counted → Running script state) {stack : Stack} (hstack : From state.stack stack) :
    Executed counted script state { state with stack } :=
  .of_stacks hrunning (from_main.trans hstack) from_alt

theorem ensures_on_stack (hrunning : counted → Running script state) {f : Stack → Run Stack}
    (hf : Ensures (Bad counted) (f state.stack) (From state.stack)) :
    Ensures (Bad counted) (on_stack state f) (Executed counted script state) :=
  hf.bind fun _ hstack => .pure (.of_stack hrunning hstack)

variable {crypto : Crypto} {checker : SignatureChecker} {flags : UInt32} {sigversion : SigVersion}

theorem Operation.ensures_run (hrunning : counted → Running script state) (f_exec : Bool) (operation : Operation) :
    Ensures (Bad counted) (operation.run crypto checker flags sigversion script f_exec state)
      (Executed counted script state) := by
  have hbegin : counted → state.pbegincodehash ≤ script.len := fun hcounted => (hrunning hcounted).code_begins
  have hweight : counted → Chargeable state.exec_data := fun hcounted => (hrunning hcounted).weight
  have hkept := Executed.refl hrunning
  cases operation with
  | number n => exact .pure (.of_stack hrunning (from_refl.cons (.inr (small_encode_i64 n))))
  | OpNop => exact .pure hkept
  | OpCheckLockTimeVerify => exact (ensures_op_check_lock_time_verify checker flags).bind fun _ _ => .pure hkept
  | OpCheckSequenceVerify => exact (ensures_op_check_sequence_verify checker flags).bind fun _ _ => .pure hkept
  | upgradable_nop => exact (ensures_ensure _ _).bind fun _ _ => .pure hkept
  | OpIf negated =>
    have hfits : counted → state.vf_exec.stack_size + 1 < 2 ^ 32 := by
      intro hcounted
      have hbehind := (hrunning hcounted).behind
      obtain ⟨hshort, hinside, -, hbranches, -, -, -⟩ := (hrunning hcounted).toCounted
      omega
    refine (ensures_op_if hfits f_exec negated).mono fun next hnext => ?_
    obtain ⟨stack, vf_exec, rfl, hstack, hsize⟩ := hnext
    refine { Executed.of_stack hrunning hstack with branches := fun hcounted => ?_ }
    have hbranches := (hrunning hcounted).branches
    dsimp only
    omega
  | OpElse =>
    refine (ensures_ensure _ _).bind fun _ hopen => ?_
    refine (ensures_toggle_top (open_of_not_empty hopen)).bind fun vf_exec hsize => .pure ?_
    refine { hkept with branches := fun hcounted => ?_ }
    have hbranches := (hrunning hcounted).branches
    dsimp only
    omega
  | OpEndIf =>
    refine (ensures_ensure _ _).bind fun _ hopen => ?_
    refine (ensures_pop_back (open_of_not_empty hopen)).bind fun vf_exec hsize => .pure ?_
    refine { hkept with branches := fun hcounted => ?_ }
    have hbranches := (hrunning hcounted).branches
    dsimp only
    omega
  | OpVerify => exact ensures_on_stack hrunning ensures_op_verify
  | OpReturn => exact ensures_fail _
  | OpToAltStack =>
    refine (ensures_need 1).bind fun _ hlen => ?_
    refine (ensures_top (Nat.le_refl 1) hlen).bind fun v hv => .pure ?_
    exact .of_stacks hrunning (from_main.trans from_pop) (from_alt.cons (.inl (List.mem_append_left _ hv)))
  | OpFromAltStack =>
    refine (ensures_ensure _ _).bind fun _ hlen => ?_
    refine (ensures_top (Nat.le_refl 1) (of_decide_eq_true hlen)).bind fun v hv => .pure ?_
    exact .of_stacks hrunning (from_main.cons (.inl (List.mem_append_right _ hv))) (from_alt.trans from_pop)
  | stack op => exact op.ensures_run.bind fun _ hstack => .pure (.of_stack hrunning hstack)
  | OpPick roll => exact ensures_on_stack hrunning (ensures_op_pick _ roll)
  | OpEqual verify => exact ensures_on_stack hrunning (ensures_op_equal verify)
  | unary op => exact ensures_on_stack hrunning (ensures_op_unary _ op)
  | binary op verify => exact ensures_on_stack hrunning (ensures_op_binary _ op verify)
  | OpWithin => exact ensures_on_stack hrunning (ensures_op_within _)
  | hash op => exact ensures_on_stack hrunning (ensures_op_hash crypto op)
  | OpCodeSeparator =>
    exact .pure { hkept with code_begins := fun hcounted => (hrunning hcounted).inside }
  | OpCheckSig verify =>
    refine (ensures_op_checksig hbegin hweight verify).mono fun next hnext => ?_
    obtain ⟨stack, exec_data, rfl, hstack, hafter⟩ := hnext
    exact { Executed.of_stack hrunning hstack with weight := hafter }
  | OpCheckSigAdd =>
    refine (ensures_op_checksigadd hweight).mono fun next hnext => ?_
    obtain ⟨stack, exec_data, rfl, hstack, hafter⟩ := hnext
    exact { Executed.of_stack hrunning hstack with weight := hafter }
  | OpCheckMultiSig verify =>
    have hops : counted → state.op_count ≤ MAX_OPS_PER_SCRIPT := fun hcounted => (hrunning hcounted).ops
    refine (ensures_op_checkmultisig hbegin hops verify).mono fun next hnext => ?_
    obtain ⟨stack, op_count, rfl, hstack, hcount⟩ := hnext
    exact { Executed.of_stack hrunning hstack with ops := fun _ => hcount }
  | bad => exact ensures_fail _

theorem ensures_perform (hrunning : counted → Running script state) (opcode : UInt8) {push_data : List UInt8}
    (hsmall : push_data.length ≤ MAX_SCRIPT_ELEMENT_SIZE) :
    Ensures (Bad counted) (perform crypto checker flags sigversion script opcode push_data state)
      (Executed counted script state) := by
  refine .ite (fun _ => ?_) fun _ => .ite (fun _ => ?_) fun _ => .pure (.refl hrunning)
  · exact (ensures_ensure _ _).bind fun _ _ => .pure (.of_stack hrunning (from_refl.cons (.inr hsmall)))
  · exact Operation.ensures_run hrunning _ _

theorem ensures_count_op (hops : counted → state.op_count ≤ MAX_OPS_PER_SCRIPT) (opcode : UInt8) :
    Ensures (Bad counted) (count_op sigversion opcode state) fun next =>
      ∃ op_count, next = { state with op_count } ∧ (counted → op_count ≤ MAX_OPS_PER_SCRIPT) := by
  refine .ite (fun _ => ?_) fun _ => .pure ⟨state.op_count, rfl, hops⟩
  refine (ensures_add_u32 fun hcounted => ?_).bind fun op_count _ => ?_
  · have hlimit : MAX_OPS_PER_SCRIPT = 201 := rfl
    have hbound := hops hcounted
    omega
  · exact (ensures_ensure _ _).bind fun _ hcount => .pure ⟨op_count, rfl, fun _ => of_decide_eq_true hcount⟩

theorem get_op_bounds {pos new_pos : Nat} {opcode : UInt8} {data : List UInt8}
    (hop : script.get_op pos = some (opcode, data, new_pos)) : pos < new_pos ∧ new_pos ≤ script.len := by
  unfold Script.get_op at hop
  split at hop
  · cases hop
  · next first rest hdrop =>
    have hlen : rest.length + 1 + pos = script.len := by
      have hlength := congrArg List.length hdrop
      rw [List.length_drop, List.length_cons] at hlength
      unfold Script.len
      omega
    have hpush : ∀ width, (if rest.length < width then none
        else if rest.length < width + littleEndian.ofBytes (rest.take width) then none
        else some (first, (rest.drop width).take (littleEndian.ofBytes (rest.take width)),
          pos + 1 + width + littleEndian.ofBytes (rest.take width))) = some (opcode, data, new_pos) →
        pos < new_pos ∧ new_pos ≤ script.len := by
      intro width heq
      split at heq
      · cases heq
      · split at heq
        · cases heq
        · cases heq
          omega
    dsimp only at hop
    split at hop
    · split at hop
      · cases hop
      · cases hop
        omega
    · split at hop
      · exact hpush 1 hop
      · split at hop
        · exact hpush 2 hop
        · split at hop
          · exact hpush 4 hop
          · cases hop
            omega

/-- What one pass of the loop leaves. -/
structure Stepped (counted : Prop) (script : Script) (state next : State) : Prop where
  main : From (state.stack ++ state.altstack) next.stack
  alt : From (state.stack ++ state.altstack) next.altstack
  size : next.stack.length + next.altstack.length ≤ MAX_STACK_SIZE
  forward : state.pc < next.pc
  counters : counted → Counted script next

theorem ensures_step (hcounters : counted → Counted script state) :
    Ensures (Bad counted) (step crypto checker flags sigversion script state) (Stepped counted script state) := by
  unfold step
  split
  · exact ensures_fail _
  · next opcode push_data new_pc hop =>
    obtain ⟨hforward, hinside⟩ := get_op_bounds hop
    refine (ensures_ensure _ _).bind fun _ hsmall => ?_
    have hbefore : counted → { state with pc := new_pc }.op_count ≤ MAX_OPS_PER_SCRIPT :=
      fun hcounted => (hcounters hcounted).ops
    refine (ensures_count_op hbefore opcode).bind fun counting hcounting => ?_
    obtain ⟨op_count, rfl, hops⟩ := hcounting
    refine (ensures_ensure _ _).bind fun _ _ => ?_
    refine (ensures_ensure _ _).bind fun _ _ => ?_
    have hrunning : counted → Running script { state with pc := new_pc, op_count } := by
      intro hcounted
      obtain ⟨hshort, -, hposition, hbranches, -, hbegin, hweight⟩ := hcounters hcounted
      exact ⟨⟨hshort, hinside, by dsimp only; omega, hbranches, hops hcounted, hbegin, hweight⟩, by dsimp only; omega⟩
    refine (ensures_perform hrunning opcode (of_decide_eq_true hsmall)).bind fun next hnext => ?_
    have hpc : next.pc = new_pc := hnext.pc
    have hpos : next.opcode_pos = state.opcode_pos := hnext.opcode_pos
    refine (ensures_ensure _ _).bind fun _ hsize => ?_
    refine (ensures_add_u32 fun hcounted => ?_).bind fun opcode_pos hadd => .pure ?_
    · have hshort := (hcounters hcounted).short
      have hposition := (hcounters hcounted).position
      omega
    · refine ⟨hnext.main, hnext.alt, of_decide_eq_true hsize, by rw [← hpc] at hforward; exact hforward,
        fun hcounted => ?_⟩
      have hposition := (hcounters hcounted).position
      have hbranches : next.vf_exec.stack_size ≤ state.opcode_pos + 1 := hnext.branches hcounted
      refine ⟨(hcounters hcounted).short, by rw [← hpc] at hinside; exact hinside, ?_, ?_, hnext.ops hcounted,
        hnext.code_begins hcounted, hnext.weight hcounted⟩
      · dsimp only
        omega
      · dsimp only
        omega

theorem ensures_eval_loop {start : State} {fuel : Nat} (hcounters : counted → Counted script state)
    (hbefore : Boundary crypto checker flags sigversion script start state) (hfuel : script.len ≤ state.pc + fuel) :
    Ensures (Bad counted) (eval_loop crypto checker flags sigversion script fuel state) fun final =>
      Boundary crypto checker flags sigversion script start final ∧ script.len ≤ final.pc := by
  induction fuel generalizing state with
  | zero =>
    have hend : ¬ state.pc < script.len := by omega
    rw [eval_loop, if_neg hend]
    exact .pure ⟨hbefore, Nat.not_lt.mp hend⟩
  | succ fuel ih =>
    refine .ite (fun hpc => ?_) fun hend => .pure ⟨hbefore, Nat.not_lt.mp hend⟩
    cases hstep : step crypto checker flags sigversion script state with
    | error e => exact .error ((ensures_step hcounters).not_bad hstep)
    | ok next =>
      have hnext : Stepped counted script state next := (ensures_step hcounters).of_eq_ok hstep
      have hforward := hnext.forward
      exact ih hnext.counters (hbefore.step hpc hstep) (by omega)

theorem counted_start (hshort : script.len < 2 ^ 32) (stack : Stack) {exec_data : ScriptExecutionData}
    (hweight : Chargeable exec_data) : Counted script (.start stack exec_data) :=
  ⟨hshort, Nat.zero_le _, Nat.le_refl 0, Nat.le_refl 0, Nat.zero_le _, Nat.zero_le _, hweight⟩

end

/-- The evaluator returns or names a script error, whatever the script, the stack and the
    checker are. Its position counters are 32 bits wide, it is not meant for taproot key
    paths, and a signature must not take the validation weight below the least `i64`. -/
theorem eval_script_returns (crypto : Crypto) (checker : SignatureChecker) (flags : UInt32) {sigversion : SigVersion}
    (hversion : sigversion ≠ .Taproot) {script : Script} (hshort : script.len < 2 ^ 32) (stack : Stack)
    {exec_data : ScriptExecutionData} (hweight : Chargeable exec_data) :
    (∃ result, eval_script crypto checker flags sigversion script stack exec_data = .ok result) ∨
      ∃ e, eval_script crypto checker flags sigversion script stack exec_data = .error (.invalid e) := by
  have hensures : Ensures (Bad True) (eval_script crypto checker flags sigversion script stack exec_data)
      fun _ => True := by
    rw [eval_script, if_neg hversion]
    refine (ensures_ensure _ _).bind fun _ _ => ?_
    refine (ensures_eval_loop (fun _ => counted_start hshort stack hweight) .start (by omega)).bind fun final _ => ?_
    exact (ensures_ensure _ _).bind fun _ _ => .pure trivial
  cases heval : eval_script crypto checker flags sigversion script stack exec_data with
  | ok result => exact .inl ⟨result, rfl⟩
  | error failure =>
    cases failure with
    | invalid e => exact .inr ⟨e, rfl⟩
    | panic why => exact absurd ⟨trivial, why, rfl⟩ (hensures.not_bad heval)

/-- Hashes and keys for runs that ask for none. -/
def Crypto.unused : Crypto where
  ripemd160_hash _ := ⟨List.replicate 20 0, rfl⟩
  sha1_hash _ := ⟨List.replicate 20 0, rfl⟩
  sha256_hash _ := ⟨List.replicate 32 0, rfl⟩
  hash160 _ := ⟨List.replicate 20 0, rfl⟩
  hash256 _ := ⟨List.replicate 32 0, rfl⟩
  from_der _ := none
  normalize_s signature := signature
  x_only_from_slice _ := none
  scalar_from_be_bytes _ := none
  tweak_add_check _ _ _ _ := false

theorem eval_script_returns_one :
    SigVersion.Tapscript ≠ .Taproot ∧
      ((∃ result, eval_script .unused BaseSignatureChecker 0 .Tapscript ⟨[OP_1]⟩ [] .default = .ok result) ∨
        ∃ e, eval_script .unused BaseSignatureChecker 0 .Tapscript ⟨[OP_1]⟩ [] .default = .error (.invalid e)) :=
  ⟨by decide, eval_script_returns .unused BaseSignatureChecker 0 (by decide) (by decide) [] (by intro h; cases h)⟩

/-- A script of `n` opcodes that do nothing. -/
def nops (n : Nat) : Script := ⟨List.replicate n OP_NOP⟩

/-- The state of a tapscript after `k` such opcodes. -/
def State.after_nops (k : Nat) : State := { State.start [] .default with pc := k, opcode_pos := k }

theorem step_nops {n k : Nat} (hlt : k < n) :
    step .unused BaseSignatureChecker 0 .Tapscript (nops n) (.after_nops k) =
      (add_u32 k 1).map fun opcode_pos => { State.after_nops (k + 1) with opcode_pos } := by
  have hop : (nops n).get_op k = some (OP_NOP, [], k + 1) := by
    have hdrop : (nops n).data.drop k = OP_NOP :: List.replicate (n - k - 1) OP_NOP := by
      rw [nops, List.drop_replicate, ← List.replicate_succ]
      congr 1
      omega
    rw [Script.get_op, hdrop]
    rfl
  have hpc : (State.after_nops k).pc = k := rfl
  rw [step, hpc, hop]
  rfl

theorem eval_loop_nops {n k fuel : Nat} (hlong : 2 ^ 32 ≤ n) (hk : k < 2 ^ 32) (hfuel : n ≤ k + fuel) :
    eval_loop .unused BaseSignatureChecker 0 .Tapscript (nops n) fuel (.after_nops k) =
      .error (.panic (.overflow .u32)) := by
  induction fuel generalizing k with
  | zero => omega
  | succ fuel ih =>
    have hlen : (nops n).len = n := List.length_replicate
    have hlt : (State.after_nops k).pc < (nops n).len := by
      rw [hlen]
      exact hk.trans_le hlong
    rw [eval_loop, if_pos hlt, step_nops (hk.trans_le hlong), add_u32]
    split
    · next hnext => exact @ih (k + 1) hnext (by omega)
    · rfl

/-- Without these conditions it panics: with the version of key paths, with the least
    validation weight, and after `2 ^ 32` opcodes. -/
theorem eval_script_panics :
    eval_script .unused BaseSignatureChecker 0 .Taproot .new [] .default =
        .error (.panic (.assertion_failed "debug_assert!(sigversion == Base || WitnessV0 || Tapscript)")) ∧
      eval_script .unused BaseSignatureChecker 0 .Tapscript ⟨[OP_CHECKSIG]⟩ [[2], [1]]
          { ScriptExecutionData.default with validation_weight_left_init := true, validation_weight_left := -2 ^ 63 } =
        .error (.panic (.overflow .i64)) ∧
      eval_script .unused BaseSignatureChecker 0 .Tapscript (nops (2 ^ 32)) [] .default =
        .error (.panic (.overflow .u32)) := by
  refine ⟨rfl, by decide +kernel, ?_⟩
  have hloop := eval_loop_nops (Nat.le_refl (2 ^ 32)) (by decide : 0 < 2 ^ 32) (Nat.le_of_eq (Nat.zero_add _).symm)
  have hlen : (nops (2 ^ 32)).len = 2 ^ 32 := List.length_replicate
  rw [eval_script, if_neg (by decide), hlen]
  generalize nops (2 ^ 32) = script at hloop ⊢
  have hstart : State.start [] ScriptExecutionData.default = .after_nops 0 := rfl
  rw [hstart, hloop]
  rfl

/-- From opcode to opcode no value of a stack is longer than 520 bytes, and after the first
    opcode the two stacks hold at most 1000 values; a stack that is larger to begin with is
    not looked at before. -/
theorem stacks_within_limits (crypto : Crypto) (checker : SignatureChecker) (flags : UInt32) (sigversion : SigVersion)
    (script : Script) {stack : Stack} (hsmall : ∀ value ∈ stack, value.length ≤ 520) (exec_data : ScriptExecutionData)
    {state : State}
    (hstate : Boundary crypto checker flags sigversion script (.start stack exec_data) state) :
    (∀ value ∈ state.stack ++ state.altstack, value.length ≤ 520) ∧
      (0 < state.pc ∨ stack.length ≤ 1000 → state.stack.length + state.altstack.length ≤ 1000) := by
  induction hstate with
  | start =>
    have hboth : (State.start stack exec_data).stack ++ (State.start stack exec_data).altstack = stack :=
      List.append_nil stack
    refine ⟨by rwa [hboth], fun hfirst => ?_⟩
    rcases hfirst with hpos | hcount
    · exact absurd hpos (Nat.lt_irrefl 0)
    · exact hcount
  | @step before next _ _ hstep ih =>
    have hnext : Stepped False script before next := (ensures_step False.elim).of_eq_ok hstep
    refine ⟨fun value hmem => ?_, fun _ => hnext.size⟩
    have hfrom : value ∈ before.stack ++ before.altstack ∨ value.length ≤ MAX_SCRIPT_ELEMENT_SIZE := by
      rcases List.mem_append.mp hmem with hmain | halt
      · exact hnext.main value hmain
      · exact hnext.alt value halt
    rcases hfrom with hold | hnew
    · exact ih.1 value hold
    · exact hnew

/-- The state after `OP_1` over a stack of one value. -/
def State.after_one : State :=
  { State.start [[1], [7]] .default with pc := 1, opcode_pos := 1 }

theorem stacks_within_limits_one :
    (∀ value ∈ State.after_one.stack ++ State.after_one.altstack, value.length ≤ 520) ∧
      (0 < State.after_one.pc ∨ [[(7 : UInt8)]].length ≤ 1000 →
        State.after_one.stack.length + State.after_one.altstack.length ≤ 1000) := by
  have hstep : step .unused BaseSignatureChecker 0 .Base ⟨[OP_1]⟩ (.start [[7]] .default) = .ok .after_one := by
    decide +kernel
  exact stacks_within_limits .unused BaseSignatureChecker 0 .Base ⟨[OP_1]⟩ (by decide) .default
    (.step .start (by decide) hstep)

/-- The size of the stack a run starts with is not checked: one value too many is there before
    the first opcode, which takes it away. -/
theorem initial_stack_unlimited :
    (∀ value ∈ List.replicate 1001 ([] : StackValue), value.length ≤ 520) ∧
      eval_script .unused BaseSignatureChecker 0 .WitnessV0 ⟨[0x75]⟩ (List.replicate 1001 []) .default =
        .ok (List.replicate 1000 [], (State.start [] .default).exec_data) ∧
      Boundary .unused BaseSignatureChecker 0 .WitnessV0 ⟨[0x75]⟩ (.start (List.replicate 1001 []) .default)
        (.start (List.replicate 1001 []) .default) ∧
      (State.start (List.replicate 1001 []) .default).stack.length +
        (State.start (List.replicate 1001 []) .default).altstack.length = 1001 := by
  refine ⟨fun value hmem => ?_, by decide +kernel, .start, by decide +kernel⟩
  rw [List.eq_of_mem_replicate hmem]
  decide

end qubitcoin.interpreter.vm
