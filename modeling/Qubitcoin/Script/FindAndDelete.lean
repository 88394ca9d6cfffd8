import Qubitcoin.Script.Operations
import Qubitcoin.Script.Parse

/-! `find_and_delete` works on operations, although it compares bytes. -/

open qubitcoin.script

namespace qubitcoin.interpreter.vm

def IsPush (pattern : List UInt8) : Prop := ∃ opcode data, opcode ≤ OP_PUSHDATA4 ∧ Encodes opcode data pattern

/-- What is left of operations and the bytes after them, without the operations at which the
    remaining bytes begin with the pattern, and the number of these. -/
def delete_ops (pattern tail : List UInt8) : List ScriptOp → List UInt8 × Nat
  | [] => (tail, 0)
  | op :: ops =>
    let (kept, n_found) := delete_ops pattern tail ops
    if pattern.isPrefixOf (op.bytes ++ ops.flatMap ScriptOp.bytes ++ tail) then (kept, n_found + 1)
    else (op.bytes ++ kept, n_found)

theorem delete_ops_eq_filter {pattern tail : List UInt8} (hpush : IsPush pattern) {ops : List ScriptOp}
    (hops : ∀ op ∈ ops, Encodes op.opcode op.data op.bytes) :
    delete_ops pattern tail ops = ((ops.filter fun op => op.bytes ≠ pattern).flatMap ScriptOp.bytes ++ tail,
      ops.countP fun op => op.bytes = pattern) := by
  obtain ⟨opcode, data, -, hpattern⟩ := hpush
  induction ops with
  | nil => rfl
  | cons op ops ih =>
    obtain ⟨hop, hops⟩ := List.forall_mem_cons.mp hops
    have hbegins : pattern.isPrefixOf (op.bytes ++ ops.flatMap ScriptOp.bytes ++ tail) = true ↔ op.bytes = pattern := by
      rw [List.isPrefixOf_iff_prefix, List.append_assoc]
      refine ⟨fun hstarts => hop.prefix_free hpattern (List.prefix_append _ _) hstarts, ?_⟩
      rintro rfl
      exact List.prefix_append _ _
    rw [delete_ops, ih hops]
    dsimp only
    by_cases hsame : op.bytes = pattern
    · rw [if_pos (hbegins.mpr hsame), List.filter_cons_of_neg (by simpa using hsame),
        List.countP_cons_of_pos (by simpa using hsame)]
    · rw [if_neg (fun hstarts => hsame (hbegins.mp hstarts)), List.filter_cons_of_pos (by simpa using hsame),
        List.countP_cons_of_neg (by simpa using hsame), List.flatMap_cons, List.append_assoc]

variable {script : Script} {pattern : List UInt8}

def deleted_from (script : Script) (pattern : List UInt8) (pos : Nat) : List UInt8 × Nat :=
  delete_ops pattern (script.ops_from script.len pos).2 (script.ops_from script.len pos).1

theorem deleted_from_none {pos : Nat} (hop : script.get_op pos = none) :
    deleted_from script pattern pos = (script.data.drop pos, 0) := by
  rw [deleted_from, Script.ops_from_none hop]
  rfl

theorem deleted_from_some {pos new_pos : Nat} {opcode : UInt8} {data : List UInt8}
    (hop : script.get_op pos = some (opcode, data, new_pos)) :
    deleted_from script pattern pos =
      if pattern.isPrefixOf (script.data.drop pos) then
        ((deleted_from script pattern new_pos).1, (deleted_from script pattern new_pos).2 + 1)
      else ((script.data.drop pos).take (new_pos - pos) ++ (deleted_from script pattern new_pos).1,
        (deleted_from script pattern new_pos).2) := by
  obtain ⟨-, -, -, hsplit⟩ := get_op_bytes hop
  unfold deleted_from
  rw [Script.ops_from_some hop, delete_ops]
  dsimp only
  rw [List.append_assoc, script.ops_from_bytes, ← hsplit]

theorem deleted_from_pattern (hpush : IsPush pattern) {pos : Nat} (hbegins : pattern.isPrefixOf (script.data.drop pos) = true) :
    deleted_from script pattern pos =
      ((deleted_from script pattern (pos + pattern.length)).1, (deleted_from script pattern (pos + pattern.length)).2 + 1) := by
  obtain ⟨opcode, data, -, hencodes⟩ := hpush
  have hop : script.get_op pos = some (opcode, data, pos + pattern.length) :=
    get_op_eq_some.mpr ⟨pattern, hencodes, List.isPrefixOf_iff_prefix.mp hbegins, rfl⟩
  rw [deleted_from_some hop, if_pos hbegins]

theorem deleted_from_repeats (hpush : IsPush pattern) : ∀ fuel pos : Nat,
    deleted_from script pattern pos =
      ((deleted_from script pattern (pos + repeats pattern fuel (script.data.drop pos) * pattern.length)).1,
        repeats pattern fuel (script.data.drop pos) +
          (deleted_from script pattern (pos + repeats pattern fuel (script.data.drop pos) * pattern.length)).2) := by
  intro fuel
  induction fuel with
  | zero =>
    intro pos
    rw [repeats, Nat.zero_mul, Nat.add_zero, Nat.zero_add]
  | succ fuel ih =>
    intro pos
    rw [repeats]
    by_cases hbegins : pattern.isPrefixOf (script.data.drop pos) = true
    · rw [if_pos hbegins, List.drop_drop, deleted_from_pattern hpush hbegins, ih]
      have hend : pos + pattern.length + repeats pattern fuel (script.data.drop (pos + pattern.length)) * pattern.length =
          pos + (repeats pattern fuel (script.data.drop (pos + pattern.length)) + 1) * pattern.length := by
        rw [Nat.add_one_mul]
        omega
      rw [hend]
      exact Prod.ext rfl (by dsimp only; omega)
    · rw [if_neg hbegins, Nat.zero_mul, Nat.add_zero, Nat.zero_add]

theorem find_and_delete_loop_eq (hpush : IsPush pattern) : ∀ {fuel pos copy_start : Nat}, script.len < fuel + pos →
    copy_start ≤ pos → find_and_delete_loop script pattern fuel pos copy_start =
      ((script.data.drop copy_start).take (pos - copy_start) ++ (deleted_from script pattern pos).1,
        (deleted_from script pattern pos).2) := by
  have hcopy : ∀ {pos copy_start : Nat}, copy_start ≤ pos →
      script.data.drop copy_start = (script.data.drop copy_start).take (pos - copy_start) ++ script.data.drop pos := by
    intro pos copy_start hle
    conv => lhs; rw [← List.take_append_drop (pos - copy_start) (script.data.drop copy_start)]
    rw [List.drop_drop, Nat.add_sub_cancel' hle]
  have hstop : ∀ {fuel pos copy_start : Nat}, script.get_op pos = none → copy_start ≤ pos →
      find_and_delete_loop script pattern fuel pos copy_start =
        ((script.data.drop copy_start).take (pos - copy_start) ++ (deleted_from script pattern pos).1,
          (deleted_from script pattern pos).2) := by
    intro fuel pos copy_start hop hle
    rw [deleted_from_none hop, ← hcopy hle]
    cases fuel with
    | zero => rfl
    | succ fuel => rw [find_and_delete_loop, hop]
  intro fuel
  induction fuel with
  | zero =>
    intro pos copy_start hfuel hle
    refine hstop ?_ hle
    rw [Script.get_op, List.drop_eq_nil_of_le (by unfold Script.len at hfuel; omega)]
  | succ fuel ih =>
    intro pos copy_start hfuel hle
    cases hop : script.get_op pos with
    | none => exact hstop hop hle
    | some result =>
      obtain ⟨opcode, data, new_pos⟩ := result
      obtain ⟨-, hforward, hinside, -⟩ := get_op_bytes hop
      rw [find_and_delete_loop, hop]
      dsimp only
      by_cases hbegins : pattern.isPrefixOf (script.data.drop pos) = true
      · have hpositive : 1 ≤ repeats pattern script.len (script.data.drop pos) := by
          cases hlen : script.len with
          | zero => omega
          | succ len =>
            rw [repeats, if_pos hbegins]
            omega
        have hnew_pos : new_pos = pos + pattern.length := by
          obtain ⟨_, _, -, hencodes⟩ := hpush
          obtain ⟨bytes, hbytes, hstarts, rfl⟩ := get_op_eq_some.mp hop
          rw [hbytes.prefix_free hencodes hstarts (List.isPrefixOf_iff_prefix.mp hbegins)]
        have hskipped : pos + pattern.length ≤ pos + repeats pattern script.len (script.data.drop pos) * pattern.length :=
          Nat.add_le_add_left (Nat.le_mul_of_pos_left _ hpositive) _
        have hend : script.len < fuel + (pos + repeats pattern script.len (script.data.drop pos) * pattern.length) := by omega
        rw [Nat.max_eq_left (hnew_pos ▸ hskipped), ih hend (Nat.le_refl _), Nat.sub_self, List.take_zero,
          List.nil_append, deleted_from_repeats hpush script.len pos]
      · have hnone : repeats pattern script.len (script.data.drop pos) = 0 := by
          cases script.len with
          | zero => rfl
          | succ len => rw [repeats, if_neg hbegins]
        rw [hnone, Nat.zero_mul, Nat.add_zero, Nat.zero_add, Nat.max_eq_right (Nat.le_of_lt hforward),
          ih (by omega) (Nat.le_of_lt hforward), deleted_from_some hop, if_neg hbegins]

/-- `find_and_delete` filters operations: it drops those at which the remaining bytes begin with
    the push, keeps the others and the bytes that are no operation, and counts what it drops. -/
theorem find_and_delete_eq_delete_ops (script : Script) (pattern : List UInt8) (hpush : IsPush pattern) :
    find_and_delete script pattern =
        (⟨(delete_ops pattern script.ops.2 script.ops.1).1⟩, (delete_ops pattern script.ops.2 script.ops.1).2) ∧
      ((find_and_delete script pattern).2 = 0 → (find_and_delete script pattern).1 = script) := by
  have hne : pattern.isEmpty = false := by
    obtain ⟨_, _, -, hencodes⟩ := hpush
    exact List.isEmpty_eq_false_iff.mpr hencodes.ne_nil
  have hloop : find_and_delete_loop script pattern (script.len + 1) 0 0 = delete_ops pattern script.ops.2 script.ops.1 := by
    rw [find_and_delete_loop_eq hpush (by omega) (Nat.le_refl 0), Nat.sub_self, List.take_zero, List.nil_append]
    rfl
  have hunchanged : (delete_ops pattern script.ops.2 script.ops.1).2 = 0 →
      (delete_ops pattern script.ops.2 script.ops.1).1 = script.data := by
    rw [delete_ops_eq_filter hpush script.ops_encodes]
    intro hzero
    dsimp only
    have hall : script.ops.1.filter (fun op => op.bytes ≠ pattern) = script.ops.1 := by
      rw [List.filter_eq_self]
      intro op hmem
      have hother := List.countP_eq_zero.mp hzero op hmem
      simpa using hother
    rw [hall, script.ops_bytes]
  have hfind : find_and_delete script pattern =
      (⟨(delete_ops pattern script.ops.2 script.ops.1).1⟩, (delete_ops pattern script.ops.2 script.ops.1).2) := by
    unfold find_and_delete
    rw [hne, if_neg Bool.false_ne_true, hloop]
    dsimp only
    split
    · rfl
    · next hnone =>
      have hzero : (delete_ops pattern script.ops.2 script.ops.1).2 = 0 := by omega
      rw [hunchanged hzero, hzero]
  refine ⟨hfind, fun hzero => ?_⟩
  rw [hfind] at hzero ⊢
  dsimp only at hzero ⊢
  rw [hunchanged hzero]

/-- A signature is dropped twice, but not inside of another push, and a push that is cut short is
    kept. -/
theorem find_and_delete_eq_delete_ops_twice :
    IsPush [0x01, 0x07] ∧
      find_and_delete ⟨[0x01, 0x07, 0x02, 0x01, 0x07, 0x01, 0x07, 0x51, 0x03, 0x01, 0x07]⟩ [0x01, 0x07] =
        (⟨[0x02, 0x01, 0x07, 0x51, 0x03, 0x01, 0x07]⟩, 2) := by
  have hshort : ([0x07] : List UInt8).length ≤ 75 := by decide
  have hpush : IsPush [0x01, 0x07] := ⟨0x01, [0x07], by decide, .direct hshort⟩
  refine ⟨hpush, ?_⟩
  rw [(find_and_delete_eq_delete_ops _ _ hpush).1]
  rfl

end qubitcoin.interpreter.vm
