import Qubitcoin.Consensus.Check
import Qubitcoin.Crypto.Sha256
import Qubitcoin.Script.Interpreter

/-! The pay-to-script-hash signature operations, counted from the bytes of a script and from
    the stack that it leaves. -/

open qubitcoin script transaction check interpreter

namespace qubitcoin.check

/-- The last operation of a script, walking from a position. -/
def last_operation (script : Script) : Nat → Nat → Option (UInt8 × List UInt8) → Option (UInt8 × List UInt8)
  | 0, _, last => last
  | fuel + 1, pos, last =>
    match script.get_op pos with
    | none => last
    | some (opcode, data, new_pos) => last_operation script fuel new_pos (some (opcode, data))

/-- The last push of a script that is not empty, if all its operations are pushes. -/
def last_data (script_sig : Script) : Option (List UInt8) :=
  script_sig.last_push (fun opcode => decide (opcode ≤ OP_16)) script_sig.len 0 []

/-- The last operation of a script pushes data that is not empty. -/
def EndsWithData (script_sig : Script) : Prop :=
  ∃ opcode data, last_operation script_sig script_sig.len 0 none = some (opcode, data) ∧ data ≠ []

variable (operations : Operations) (flags : UInt32)

def Runs (script_sig : Script) : Prop := ∃ stack, eval_script operations flags [] script_sig = .ok stack

/-- The outputs of an input that pay to a script hash. -/
def SpendsP2sh (get_script_pubkey : OutPoint → Option Script) (input : TxIn) : Prop :=
  ∃ prev_script, get_script_pubkey input.prevout = some prev_script ∧ prev_script.is_p2sh = true

/-- What an input counts for: the signature operations of the redeem script that is run for
    it. -/
def redeem_sigops (get_script_pubkey : OutPoint → Option Script) (input : TxIn) : Nat :=
  match get_script_pubkey input.prevout with
  | some prev_script =>
    if prev_script.is_p2sh then
      match redeem_script operations flags input.script_sig with
      | some redeem => redeem.get_sig_op_count true
      | none => 0
    else 0
  | none => 0

variable {operations flags}

theorem last_push_eq_some (script : Script) {fuel : Nat} : ∀ {pos : Nat} {data : List UInt8},
    (script.last_push (fun opcode => decide (opcode ≤ OP_16)) fuel pos data).isSome =
      script.is_push_only_loop fuel pos := by
  induction fuel with
  | zero => exact rfl
  | succ fuel ih =>
    intro pos data
    unfold Script.last_push Script.is_push_only_loop
    cases script.get_op pos with
    | none => rfl
    | some operation =>
      obtain ⟨opcode, push_data, new_pos⟩ := operation
      dsimp only
      by_cases hle : opcode ≤ OP_16
      · rw [if_pos (decide_eq_true hle), if_neg (UInt8.not_lt.mpr hle)]
        exact ih
      · rw [if_neg (by simpa using hle), if_pos (UInt8.not_le.mp hle)]
        rfl

/-- A value that an operation pushes without data of its own, or with empty data. -/
def Small (value : List UInt8) : Prop :=
  value = [] ∨ value = ScriptNum.encode_i64 (-1) ∨ ∃ n : Nat, 1 ≤ n ∧ n ≤ 16 ∧ value = ScriptNum.encode_i64 n

theorem Small.get_sig_op_count {value : List UInt8} (hsmall : Small value) :
    (Script.mk value).get_sig_op_count true = 0 := by
  obtain rfl | rfl | ⟨n, hlow, hhigh, rfl⟩ := hsmall
  · rfl
  · decide
  · interval_cases n <;> decide

theorem get_op_data {script : Script} {pos new_pos : Nat} {opcode : UInt8} {data : List UInt8}
    (hop : script.get_op pos = some (opcode, data, new_pos)) (hlarge : ¬ opcode ≤ OP_PUSHDATA4) : data = [] := by
  unfold Script.get_op at hop
  split at hop
  · cases hop
  · next first rest _ =>
    have hpush : ∀ width, (if rest.length < width then none
        else if rest.length < width + littleEndian.ofBytes (rest.take width) then none
        else some (first, (rest.drop width).take (littleEndian.ofBytes (rest.take width)),
          pos + 1 + width + littleEndian.ofBytes (rest.take width))) = some (opcode, data, new_pos) → first = opcode := by
      intro width heq
      split at heq
      · cases heq
      · split at heq
        · cases heq
        · cases heq
          rfl
    dsimp only at hop
    split at hop
    · next hle =>
      split at hop
      · cases hop
      · cases hop
        exact absurd (UInt8.le_trans hle (by decide)) hlarge
    · split at hop
      · next heq => exact absurd (by rw [← hpush 1 hop, heq]; decide) hlarge
      · split at hop
        · next heq => exact absurd (by rw [← hpush 2 hop, heq]; decide) hlarge
        · split at hop
          · next heq => exact absurd (by rw [← hpush 4 hop, heq]; decide) hlarge
          · cases hop
            rfl

theorem execute_push {machine after : Machine} (hexec : machine.vf_exec = []) {opcode : UInt8} (hle : opcode ≤ OP_16)
    {data : List UInt8} (hrun : execute operations flags machine opcode data = .ok after) :
    ∃ value, after = machine.push value ∧ (opcode ≤ OP_PUSHDATA4 ∧ value = data ∨ ¬ opcode ≤ OP_PUSHDATA4 ∧ Small value) := by
  unfold execute at hrun
  obtain ⟨_, _, hrun⟩ := bind_eq_ok_iff.mp hrun
  obtain ⟨counted, hcount, hrun⟩ := bind_eq_ok_iff.mp hrun
  obtain ⟨_, _, hrun⟩ := bind_eq_ok_iff.mp hrun
  obtain ⟨_, _, hrun⟩ := bind_eq_ok_iff.mp hrun
  obtain ⟨performed, hperform, hrun⟩ := bind_eq_ok_iff.mp hrun
  obtain ⟨_, _, hrun⟩ := bind_eq_ok_iff.mp hrun
  cases hrun
  unfold count_operation at hcount
  rw [if_neg (UInt8.not_lt.mpr hle)] at hcount
  cases hcount
  unfold perform at hperform
  rw [hexec] at hperform
  dsimp only at hperform
  split at hperform
  · next hpush =>
    obtain ⟨_, _, hperform⟩ := bind_eq_ok_iff.mp hperform
    cases hperform
    exact ⟨data, rfl, .inl ⟨hpush.2, rfl⟩⟩
  · next hpush =>
    have hlarge : ¬ opcode ≤ OP_PUSHDATA4 := fun hsmall => hpush ⟨rfl, hsmall⟩
    rw [if_pos (.inl rfl)] at hperform
    split at hperform
    · cases hperform
      exact ⟨_, rfl, .inr ⟨hlarge, .inr (.inl rfl)⟩⟩
    · split at hperform
      · next hnumber =>
        cases hperform
        have hlow : OP_1.toNat ≤ opcode.toNat := hnumber.1
        have hhigh : opcode.toNat ≤ OP_16.toNat := hnumber.2
        have hone : OP_1.toNat = 81 := rfl
        have hsixteen : OP_16.toNat = 96 := rfl
        refine ⟨_, rfl, .inr ⟨hlarge, .inr (.inr ⟨opcode.toNat - 80, by omega, by omega, ?_⟩)⟩⟩
        congr 1
        omega
      · cases hperform

/-- What the walks over a script of pushes have found: the last operation, the last data that
    is not empty, and the stack. -/
structure Walked (last : Option (UInt8 × List UInt8)) (data : List UInt8) (stack : List StackValue) : Prop where
  empty : last = none → stack = []
  pushed : ∀ opcode pushed, last = some (opcode, pushed) → pushed ≠ [] → data = pushed ∧ stack.getLast? = some pushed
  small : ∀ opcode, last = some (opcode, []) → ∃ value, stack.getLast? = some value ∧ Small value

theorem Walked.eval_loop {script : Script} {fuel : Nat} : ∀ {pos : Nat} {last : Option (UInt8 × List UInt8)}
    {data found : List UInt8} {machine after : Machine}, Walked last data machine.stack → machine.vf_exec = [] →
      script.last_push (fun opcode => decide (opcode ≤ OP_16)) fuel pos data = some found →
      eval_loop operations flags script fuel pos machine = .ok after →
      Walked (last_operation script fuel pos last) found after.stack := by
  induction fuel with
  | zero =>
    intro pos last data found machine after hwalked _ hfound hrun
    cases hfound
    cases hrun
    exact hwalked
  | succ fuel ih =>
    intro pos last data found machine after hwalked hexec hfound hrun
    unfold Script.last_push at hfound
    unfold interpreter.eval_loop at hrun
    unfold last_operation
    by_cases hinside : pos < script.len
    · rw [if_pos hinside] at hrun
      cases hop : script.get_op pos with
      | none =>
        rw [hop] at hrun
        cases hrun
      | some operation =>
        obtain ⟨opcode, push_data, new_pos⟩ := operation
        rw [hop] at hrun hfound
        dsimp only at hrun hfound ⊢
        split at hfound
        · next hallowed =>
          obtain ⟨next, hnext, hrun⟩ := bind_eq_ok_iff.mp hrun
          obtain ⟨value, rfl, hvalue⟩ := execute_push hexec (of_decide_eq_true hallowed) hnext
          have htop : (machine.push value).stack.getLast? = some value := by simp [Machine.push]
          have hwalked : Walked (some (opcode, push_data)) (if push_data.isEmpty then data else push_data)
              (machine.push value).stack := by
            refine ⟨nofun, ?_, ?_⟩
            · rintro _ _ ⟨⟩ hnonempty
              obtain ⟨_, rfl⟩ | ⟨hlarge, _⟩ := hvalue
              · exact ⟨if_neg (by simpa using hnonempty), htop⟩
              · exact absurd (get_op_data hop hlarge) hnonempty
            · rintro _ ⟨⟩
              refine ⟨value, htop, ?_⟩
              obtain ⟨_, rfl⟩ | ⟨_, hsmall⟩ := hvalue
              · exact .inl rfl
              · exact hsmall
          exact ih hwalked hexec hfound hrun
        · cases hfound
    · rw [if_neg hinside] at hrun
      cases hrun
      have hend : script.get_op pos = none := by
        unfold Script.get_op
        rw [List.drop_eq_nil_of_le (Nat.not_lt.mp hinside)]
      rw [hend] at hfound ⊢
      cases hfound
      exact hwalked

/-- The signature operations of the redeem script, from the bytes of the script: those of its
    last data if it runs and ends with data, and none otherwise. -/
theorem redeem_script_sigops {script_sig : Script} {data : List UInt8} (hdata : last_data script_sig = some data) :
    (Runs operations flags script_sig → EndsWithData script_sig → redeem_script operations flags script_sig = some ⟨data⟩) ∧
    (¬ (Runs operations flags script_sig ∧ EndsWithData script_sig) →
      ∀ redeem, redeem_script operations flags script_sig = some redeem → redeem.get_sig_op_count true = 0) := by
  have hpush : script_sig.is_push_only = true := by
    unfold Script.is_push_only
    rw [← last_push_eq_some script_sig, ← last_data, hdata]
    rfl
  have hwalked : ∀ stack, eval_script operations flags [] script_sig = .ok stack →
      Walked (last_operation script_sig script_sig.len 0 none) data stack := by
    intro stack hrun
    unfold eval_script at hrun
    obtain ⟨_, _, hrun⟩ := bind_eq_ok_iff.mp hrun
    obtain ⟨machine, hmachine, hrun⟩ := bind_eq_ok_iff.mp hrun
    obtain ⟨_, _, hrun⟩ := bind_eq_ok_iff.mp hrun
    cases hrun
    exact Walked.eval_loop ⟨fun _ => rfl, nofun, nofun⟩ rfl hdata hmachine
  unfold redeem_script
  rw [if_pos hpush]
  constructor
  · rintro ⟨stack, hrun⟩ ⟨opcode, pushed, hlast, hnonempty⟩
    obtain ⟨rfl, htop⟩ := (hwalked stack hrun).pushed opcode pushed hlast hnonempty
    rw [hrun]
    dsimp only
    rw [htop, Option.map_some]
  · intro hnot redeem hredeem
    split at hredeem
    · next stack hrun =>
      have hwalked := hwalked stack hrun
      cases hlast : last_operation script_sig script_sig.len 0 none with
      | none =>
        rw [hwalked.empty hlast] at hredeem
        cases hredeem
      | some operation =>
        obtain ⟨opcode, pushed⟩ := operation
        by_cases hnonempty : pushed = []
        · subst hnonempty
          obtain ⟨value, htop, hsmall⟩ := hwalked.small opcode hlast
          rw [htop, Option.map_some] at hredeem
          cases hredeem
          exact hsmall.get_sig_op_count
        · exact absurd ⟨⟨stack, hrun⟩, opcode, pushed, hlast, hnonempty⟩ hnot
    · cases hredeem

variable {get_script_pubkey : OutPoint → Option Script}

def counted_sigops (get_script_pubkey : OutPoint → Option Script) (input : TxIn) : Nat :=
  match get_script_pubkey input.prevout with
  | some prev_script =>
    if prev_script.is_p2sh then (Script.mk ((last_data input.script_sig).getD [])).get_sig_op_count true else 0
  | none => 0

theorem p2sh_sigops_eq {inputs : List TxIn}
    (hpush : ∀ input ∈ inputs, SpendsP2sh get_script_pubkey input → input.script_sig.is_push_only = true) :
    ∀ n_sig_ops, p2sh_sigops get_script_pubkey n_sig_ops inputs =
      n_sig_ops + (inputs.map (counted_sigops get_script_pubkey)).sum := by
  induction inputs with
  | nil => exact fun _ => rfl
  | cons input rest ih =>
    intro n_sig_ops
    have ih := ih fun other hmem => hpush other (List.mem_cons_of_mem _ hmem)
    unfold p2sh_sigops
    rw [List.map_cons, List.sum_cons, counted_sigops]
    cases hprev : get_script_pubkey input.prevout with
    | none =>
      dsimp only
      rw [ih, Nat.zero_add]
    | some prev_script =>
      dsimp only
      split
      · next hp2sh =>
        have honly := hpush input List.mem_cons_self ⟨prev_script, hprev, hp2sh⟩
        unfold Script.is_push_only at honly
        rw [← last_push_eq_some input.script_sig, ← last_data] at honly
        obtain ⟨data, hdata⟩ := Option.isSome_iff_exists.mp honly
        have hfold : input.script_sig.last_push (fun opcode => decide (opcode ≤ OP_16)) input.script_sig.len 0 [] =
            some data := hdata
        rw [hfold, hdata]
        dsimp only
        rw [ih, Option.getD_some, Nat.add_assoc]
      · rw [ih, Nat.zero_add]

theorem p2sh_sigops_eq_zero {inputs : List TxIn}
    (hpush : ∃ input ∈ inputs, SpendsP2sh get_script_pubkey input ∧ input.script_sig.is_push_only = false) :
    ∀ n_sig_ops, p2sh_sigops get_script_pubkey n_sig_ops inputs = 0 := by
  induction inputs with
  | nil =>
    obtain ⟨_, hmem, _⟩ := hpush
    cases hmem
  | cons input rest ih =>
    intro n_sig_ops
    obtain ⟨other, hmem, hother⟩ := hpush
    have hlater : input.script_sig.is_push_only = true ∨ ¬ SpendsP2sh get_script_pubkey input →
        ∃ input ∈ rest, SpendsP2sh get_script_pubkey input ∧ input.script_sig.is_push_only = false := by
      intro hfine
      rcases List.mem_cons.mp hmem with rfl | hmem
      · obtain hfine | hfine := hfine
        · exact absurd (hfine.symm.trans hother.2) (by decide)
        · exact absurd hother.1 hfine
      · exact ⟨other, hmem, hother⟩
    unfold p2sh_sigops
    cases hprev : get_script_pubkey input.prevout with
    | none =>
      refine ih (hlater (.inr ?_)) n_sig_ops
      rintro ⟨_, hsome, _⟩
      rw [hprev] at hsome
      cases hsome
    | some prev_script =>
      dsimp only
      split
      · cases hfound : input.script_sig.last_push (fun opcode => decide (opcode ≤ OP_16)) input.script_sig.len 0 [] with
        | none => rfl
        | some data =>
          refine ih (hlater (.inl ?_)) _
          unfold Script.is_push_only
          rw [← last_push_eq_some input.script_sig, hfound]
          rfl
      · next hnot =>
        refine ih (hlater (.inr ?_)) n_sig_ops
        rintro ⟨_, hsome, hp2sh⟩
        rw [hprev] at hsome
        cases hsome
        exact hnot hp2sh

theorem sum_map_eq_iff {α : Type} {f g : α → Nat} {items : List α} (hle : ∀ x ∈ items, f x ≤ g x) :
    (items.map g).sum = (items.map f).sum ↔ ∀ x ∈ items, g x = f x := by
  induction items with
  | nil => simp
  | cons x rest ih =>
    have hx := hle x List.mem_cons_self
    have hrest := fun y hmem => hle y (List.mem_cons_of_mem x hmem)
    have hsum : (rest.map f).sum ≤ (rest.map g).sum := List.sum_le_sum hrest
    rw [List.map_cons, List.map_cons, List.sum_cons, List.sum_cons, List.forall_mem_cons, ← ih hrest]
    omega

/-- The counter and the redeem scripts agree on an input: its script runs and ends with data,
    or the last data of the script has no signature operation. -/
def Agrees (operations : Operations) (flags : UInt32) (script_sig : Script) : Prop :=
  (Runs operations flags script_sig ∧ EndsWithData script_sig) ∨
    ∀ data, last_data script_sig = some data → (Script.mk data).get_sig_op_count true = 0

theorem counted_sigops_eq_iff {input : TxIn}
    (hpush : SpendsP2sh get_script_pubkey input → input.script_sig.is_push_only = true) :
    redeem_sigops operations flags get_script_pubkey input ≤ counted_sigops get_script_pubkey input ∧
      (counted_sigops get_script_pubkey input = redeem_sigops operations flags get_script_pubkey input ↔
        (SpendsP2sh get_script_pubkey input → Agrees operations flags input.script_sig)) := by
  unfold redeem_sigops counted_sigops
  cases hprev : get_script_pubkey input.prevout with
  | none =>
    refine ⟨le_rfl, fun _ => ?_, fun _ => rfl⟩
    rintro ⟨_, hsome, _⟩
    rw [hprev] at hsome
    cases hsome
  | some prev_script =>
    dsimp only
    split
    · next hp2sh =>
      have hspends : SpendsP2sh get_script_pubkey input := ⟨prev_script, hprev, hp2sh⟩
      have honly := hpush hspends
      unfold Script.is_push_only at honly
      rw [← last_push_eq_some input.script_sig, ← last_data] at honly
      obtain ⟨data, hdata⟩ := Option.isSome_iff_exists.mp honly
      obtain ⟨hsame, hnone⟩ := @redeem_script_sigops operations flags _ _ hdata
      rw [hdata, Option.getD_some]
      by_cases hends : Runs operations flags input.script_sig ∧ EndsWithData input.script_sig
      · rw [hsame hends.1 hends.2]
        exact ⟨le_rfl, fun _ _ => .inl hends, fun _ => rfl⟩
      · have hzero : (match redeem_script operations flags input.script_sig with
            | some redeem => redeem.get_sig_op_count true
            | none => 0) = 0 := by
          split
          · next redeem hredeem => exact hnone hends redeem hredeem
          · rfl
        rw [hzero]
        refine ⟨Nat.zero_le _, fun hcount _ => .inr fun other hother => ?_, fun hagrees => ?_⟩
        · cases hdata.symm.trans hother
          exact hcount
        · obtain habsurd | hcount := hagrees hspends
          · exact absurd habsurd hends
          · exact hcount data hdata
    · next hnot =>
      refine ⟨le_rfl, fun _ => ?_, fun _ => rfl⟩
      rintro ⟨_, hsome, hp2sh⟩
      rw [hprev] at hsome
      cases hsome
      exact absurd hp2sh hnot

/-- The inputs that make the count of the whole transaction zero. -/
def Suppressed (get_script_pubkey : OutPoint → Option Script) (tx : Transaction) : Prop :=
  tx.is_coinbase = true ∨
    ∃ input ∈ tx.vin, SpendsP2sh get_script_pubkey input ∧ input.script_sig.is_push_only = false

/-- The count is the sum over the redeem scripts exactly if none of them has a signature
    operation where the transaction is a coinbase or has a pay-to-script-hash input with an
    operation that is not a push, and elsewhere exactly if every pay-to-script-hash input
    runs and ends with data, or has no signature operation in its last data. -/
theorem get_p2sh_sigop_count_eq_iff (operations : Operations) (flags : UInt32) (tx : Transaction)
    (get_script_pubkey : OutPoint → Option Script) :
    get_p2sh_sigop_count tx get_script_pubkey = (tx.vin.map (redeem_sigops operations flags get_script_pubkey)).sum ↔
      (Suppressed get_script_pubkey tx ∧ ∀ input ∈ tx.vin, redeem_sigops operations flags get_script_pubkey input = 0) ∨
      (¬ Suppressed get_script_pubkey tx ∧ ∀ input ∈ tx.vin, SpendsP2sh get_script_pubkey input →
        Agrees operations flags input.script_sig) := by
  by_cases hsuppressed : Suppressed get_script_pubkey tx
  · have hzero : get_p2sh_sigop_count tx get_script_pubkey = 0 := by
      unfold get_p2sh_sigop_count
      obtain hcoinbase | hpush := hsuppressed
      · rw [if_pos hcoinbase]
      · rw [p2sh_sigops_eq_zero hpush, ite_self]
    rw [hzero, eq_comm, List.sum_eq_zero_iff]
    simp [hsuppressed]
  · have hpush : ∀ input ∈ tx.vin, SpendsP2sh get_script_pubkey input → input.script_sig.is_push_only = true := by
      intro input hmem hspends
      by_contra hnot
      exact hsuppressed (.inr ⟨input, hmem, hspends, by simpa using hnot⟩)
    have hcount : get_p2sh_sigop_count tx get_script_pubkey = (tx.vin.map (counted_sigops get_script_pubkey)).sum := by
      unfold get_p2sh_sigop_count
      rw [if_neg fun hcoinbase => hsuppressed (.inl hcoinbase), p2sh_sigops_eq hpush, Nat.zero_add]
    rw [hcount, sum_map_eq_iff fun input hmem => (counted_sigops_eq_iff (hpush input hmem)).1]
    constructor
    · exact fun hall => .inr ⟨hsuppressed, fun input hmem => (counted_sigops_eq_iff (hpush input hmem)).2.mp (hall input hmem)⟩
    · rintro (⟨habsurd, _⟩ | ⟨_, hall⟩)
      · exact absurd habsurd hsuppressed
      · exact fun input hmem => (counted_sigops_eq_iff (hpush input hmem)).2.mpr (hall input hmem)

/-- Two inputs of pay-to-script-hash outputs. The redeem script of the first is one signature
    check, and the script of the second has an operation that is not a push. -/
def two_p2sh_inputs : Transaction :=
  .new crypto.sha256d 2 [⟨⟨1, 0⟩, ⟨[0x01, OP_CHECKSIG]⟩, SEQUENCE_FINAL, .new⟩, ⟨⟨2, 0⟩, ⟨[0x61]⟩, SEQUENCE_FINAL, .new⟩]
    [⟨100000, ⟨[OP_1]⟩⟩] 0

/-- The second input takes away what the first one counts for. -/
theorem get_p2sh_sigop_count_fails :
    ∃ (operations : Operations) (get_script_pubkey : OutPoint → Option Script),
      get_p2sh_sigop_count two_p2sh_inputs get_script_pubkey ≠
        (two_p2sh_inputs.vin.map (redeem_sigops operations ScriptVerifyFlags.MANDATORY_SCRIPT_VERIFY_FLAGS
          get_script_pubkey)).sum := by
  refine ⟨fun _ _ => .error .BadOpcode, fun _ => some ⟨[OP_HASH160, 0x14] ++ List.replicate 20 0 ++ [OP_EQUAL]⟩, ?_⟩
  decide

end qubitcoin.check
