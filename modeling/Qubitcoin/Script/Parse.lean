import Qubitcoin.Script.Interpreter

/-! Scripts as sequences of operations: which bytes encode an operation, and which operations
    a script consists of. -/

namespace qubitcoin.script

/-- The number of length bytes after an opcode of a long push. -/
def push_width (opcode : UInt8) : Option Nat :=
  if opcode = OP_PUSHDATA1 then some 1
  else if opcode = OP_PUSHDATA2 then some 2
  else if opcode = OP_PUSHDATA4 then some 4
  else none

/-- The bytes of an operation, by its opcode and the data that it pushes: a short push, whose
    opcode is the length of the data; a long one, with the length after the opcode; and any
    other opcode. -/
inductive Encodes : UInt8 → List UInt8 → List UInt8 → Prop
  | direct {data : List UInt8} (hlength : data.length ≤ 75) :
      Encodes (UInt8.ofNat data.length) data (UInt8.ofNat data.length :: data)
  | long {opcode : UInt8} {width : Nat} {data : List UInt8} (hwidth : push_width opcode = some width)
      (hlength : data.length < 256 ^ width) :
      Encodes opcode data (opcode :: (littleEndian.toBytes width data.length ++ data))
  | code {opcode : UInt8} (hopcode : OP_PUSHDATA4 < opcode) : Encodes opcode [] [opcode]

variable {self : Script} {pos new_pos : Nat} {opcode : UInt8} {data bytes : List UInt8}

theorem Encodes.ne_nil (hencodes : Encodes opcode data bytes) : bytes ≠ [] := by
  cases hencodes <;> exact List.cons_ne_nil _ _

theorem push_width_cases {width : Nat} (hwidth : push_width opcode = some width) :
    opcode = OP_PUSHDATA1 ∧ width = 1 ∨ opcode = OP_PUSHDATA2 ∧ width = 2 ∨ opcode = OP_PUSHDATA4 ∧ width = 4 := by
  unfold push_width at hwidth
  split at hwidth
  · next heq =>
    cases hwidth
    exact .inl ⟨heq, rfl⟩
  · split at hwidth
    · next heq =>
      cases hwidth
      exact .inr (.inl ⟨heq, rfl⟩)
    · split at hwidth
      · next heq =>
        cases hwidth
        exact .inr (.inr ⟨heq, rfl⟩)
      · cases hwidth

theorem get_long_push {first : UInt8} {width : Nat} {rest : List UInt8} :
    ((if rest.length < width then none
      else if rest.length < width + littleEndian.ofBytes (rest.take width) then none
      else some (first, (rest.drop width).take (littleEndian.ofBytes (rest.take width)),
        pos + 1 + width + littleEndian.ofBytes (rest.take width))) = some (opcode, data, new_pos)) ↔
      first = opcode ∧ data.length < 256 ^ width ∧ littleEndian.toBytes width data.length ++ data <+: rest ∧
        new_pos = pos + 1 + width + data.length := by
  constructor
  · intro hread
    split at hread
    · cases hread
    · next hwidth =>
      split at hread
      · cases hread
      · next hlength =>
        cases hread
        have htake : (rest.take width).length = width := List.length_take_of_le (Nat.not_lt.mp hwidth)
        have hlt := littleEndian.ofBytes_lt (rest.take width)
        have hback := littleEndian.toBytes_ofBytes (rest.take width)
        rw [htake] at hlt hback
        have hdata : ((rest.drop width).take (littleEndian.ofBytes (rest.take width))).length =
            littleEndian.ofBytes (rest.take width) := List.length_take_of_le (by rw [List.length_drop]; omega)
        rw [hdata, hback]
        refine ⟨rfl, hlt, ?_, rfl⟩
        rw [← List.take_add]
        exact List.take_prefix _ _
  · rintro ⟨rfl, hlt, ⟨rest, rfl⟩, rfl⟩
    have hwidth : (littleEndian.toBytes width data.length).length = width := littleEndian.length_toBytes _ _
    have htake : ((littleEndian.toBytes width data.length ++ data) ++ rest).take width =
        littleEndian.toBytes width data.length := by
      rw [List.append_assoc]
      exact List.take_left' hwidth
    have hdrop : ((littleEndian.toBytes width data.length ++ data) ++ rest).drop width = data ++ rest := by
      rw [List.append_assoc]
      exact List.drop_left' hwidth
    have hlength : ((littleEndian.toBytes width data.length ++ data) ++ rest).length = width + data.length + rest.length := by
      rw [List.length_append, List.length_append, hwidth]
    rw [htake, hdrop, littleEndian.ofBytes_toBytes hlt, if_neg (by omega), if_neg (by omega), List.take_left' rfl]

theorem encodes_cons {first : UInt8} {rest : List UInt8} (hdirect : ¬ first ≤ 0x4b) :
    (∃ bytes, Encodes opcode data bytes ∧ bytes <+: first :: rest ∧ new_pos = pos + bytes.length) ↔
      match push_width first with
      | some width => first = opcode ∧ data.length < 256 ^ width ∧ littleEndian.toBytes width data.length ++ data <+: rest ∧
          new_pos = pos + 1 + width + data.length
      | none => first = opcode ∧ data = [] ∧ new_pos = pos + 1 := by
  constructor
  · rintro ⟨bytes, hencodes, hstarts, rfl⟩
    cases hencodes with
    | direct hlength =>
      obtain ⟨rfl, -⟩ := List.cons_prefix_cons.mp hstarts
      refine absurd ?_ hdirect
      rw [UInt8.le_iff_toNat_le, UInt8.toNat_ofNat_of_lt' (Nat.lt_of_le_of_lt hlength (by decide))]
      exact hlength
    | long hwidth hlength =>
      obtain ⟨rfl, htail⟩ := List.cons_prefix_cons.mp hstarts
      rw [hwidth]
      refine ⟨rfl, hlength, htail, ?_⟩
      rw [List.length_cons, List.length_append, littleEndian.length_toBytes]
      omega
    | code hopcode =>
      obtain ⟨rfl, -⟩ := List.cons_prefix_cons.mp hstarts
      have hnone : push_width opcode = none := by
        cases hwidth : push_width opcode with
        | none => rfl
        | some width =>
          obtain ⟨rfl, -⟩ | ⟨rfl, -⟩ | ⟨rfl, -⟩ := push_width_cases hwidth <;> exact absurd hopcode (by decide)
      rw [hnone]
      exact ⟨rfl, rfl, rfl⟩
  · cases hwidth : push_width first with
    | some width =>
      rintro ⟨rfl, hlength, hstarts, rfl⟩
      refine ⟨_, .long hwidth hlength, List.cons_prefix_cons.mpr ⟨rfl, hstarts⟩, ?_⟩
      rw [List.length_cons, List.length_append, littleEndian.length_toBytes]
      omega
    | none =>
      rintro ⟨rfl, rfl, rfl⟩
      refine ⟨_, .code ?_, List.cons_prefix_cons.mpr ⟨rfl, List.nil_prefix⟩, rfl⟩
      rw [← UInt8.not_le]
      intro hle
      have hle : first.toNat ≤ 78 := UInt8.le_iff_toNat_le.mp hle
      have hgt : 75 < first.toNat := UInt8.lt_iff_toNat_lt.mp (UInt8.not_le.mp hdirect)
      have hvalue : first = UInt8.ofNat first.toNat := UInt8.ofNat_toNat.symm
      have hcases : first.toNat = 76 ∨ first.toNat = 77 ∨ first.toNat = 78 := by omega
      rcases hcases with heq | heq | heq <;>
      · rw [hvalue, heq] at hwidth
        cases hwidth

theorem get_op_eq_some : self.get_op pos = some (opcode, data, new_pos) ↔
    ∃ bytes, Encodes opcode data bytes ∧ bytes <+: self.data.drop pos ∧ new_pos = pos + bytes.length := by
  unfold Script.get_op
  cases hdrop : self.data.drop pos with
  | nil =>
    refine iff_of_false nofun ?_
    rintro ⟨bytes, hencodes, hstarts, -⟩
    exact hencodes.ne_nil (List.prefix_nil.mp hstarts)
  | cons first rest =>
    dsimp only
    by_cases hdirect : first ≤ 0x4b
    · have hvalue : first.toNat ≤ 75 := UInt8.le_iff_toNat_le.mp hdirect
      rw [if_pos hdirect]
      constructor
      · intro hread
        split at hread
        · cases hread
        · next hlength =>
          cases hread
          have hdata : (rest.take opcode.toNat).length = opcode.toNat := List.length_take_of_le (Nat.not_lt.mp hlength)
          have hencodes : Encodes (UInt8.ofNat (rest.take opcode.toNat).length) (rest.take opcode.toNat) _ :=
            .direct (by omega)
          rw [hdata, UInt8.ofNat_toNat] at hencodes
          refine ⟨_, hencodes, List.cons_prefix_cons.mpr ⟨rfl, List.take_prefix _ _⟩, ?_⟩
          rw [List.length_cons, hdata]
          omega
      · rintro ⟨bytes, hencodes, hstarts, rfl⟩
        cases hencodes with
        | direct hlength =>
          obtain ⟨hfirst, hstarts⟩ := List.cons_prefix_cons.mp hstarts
          have hcount : first.toNat = data.length := by
            rw [← hfirst]
            exact UInt8.toNat_ofNat_of_lt' (Nat.lt_of_le_of_lt hlength (by decide))
          obtain ⟨tail, rfl⟩ := hstarts
          rw [hcount, if_neg (by rw [List.length_append]; omega), List.take_left' rfl, hfirst, List.length_cons]
          congr 3
          omega
        | long hwidth =>
          obtain ⟨rfl, -⟩ := List.cons_prefix_cons.mp hstarts
          obtain ⟨rfl, -⟩ | ⟨rfl, -⟩ | ⟨rfl, -⟩ := push_width_cases hwidth <;> exact absurd hdirect (by decide)
        | code hopcode =>
          obtain ⟨rfl, -⟩ := List.cons_prefix_cons.mp hstarts
          exact absurd (UInt8.le_trans hdirect (by decide : (0x4b : UInt8) ≤ OP_PUSHDATA4)) (UInt8.not_le.mpr hopcode)
    · rw [if_neg hdirect, encodes_cons hdirect]
      unfold push_width
      split
      · exact get_long_push
      · split
        · exact get_long_push
        · split
          · exact get_long_push
          · simp only [Option.some.injEq, Prod.mk.injEq]
            exact and_congr_right fun _ => and_congr eq_comm eq_comm

theorem Encodes.prefix_free {other_opcode : UInt8} {other_data other_bytes data_after : List UInt8}
    (hencodes : Encodes opcode data bytes) (hother : Encodes other_opcode other_data other_bytes)
    (hstarts : bytes <+: data_after) (hother_starts : other_bytes <+: data_after) : bytes = other_bytes := by
  have hread : (Script.mk data_after).get_op 0 = some (opcode, data, 0 + bytes.length) :=
    get_op_eq_some.mpr ⟨bytes, hencodes, hstarts, rfl⟩
  have hother_read : (Script.mk data_after).get_op 0 = some (other_opcode, other_data, 0 + other_bytes.length) :=
    get_op_eq_some.mpr ⟨other_bytes, hother, hother_starts, rfl⟩
  rw [hread] at hother_read
  have hlength : bytes.length = other_bytes.length := by
    have hend := congrArg Prod.snd (congrArg Prod.snd (Option.some.inj hother_read))
    dsimp only at hend
    omega
  exact (List.prefix_of_prefix_length_le hstarts hother_starts hlength.le).eq_of_length hlength

structure ScriptOp where
  opcode : UInt8
  data : List UInt8
  bytes : List UInt8
  deriving DecidableEq, Repr

/-- The operations from a position on, and what is left where the script ends or a push is cut
    short. -/
def Script.ops_from (self : Script) : Nat → Nat → List ScriptOp × List UInt8
  | 0, pos => ([], self.data.drop pos)
  | fuel + 1, pos =>
    match self.get_op pos with
    | none => ([], self.data.drop pos)
    | some (opcode, data, new_pos) =>
      let (ops, tail) := self.ops_from fuel new_pos
      (⟨opcode, data, (self.data.drop pos).take (new_pos - pos)⟩ :: ops, tail)

/-- The operations of a script and what is left after them. Every operation is at least one byte
    long. -/
def Script.ops (self : Script) : List ScriptOp × List UInt8 := self.ops_from self.len 0

theorem get_op_bytes (hop : self.get_op pos = some (opcode, data, new_pos)) :
    Encodes opcode data ((self.data.drop pos).take (new_pos - pos)) ∧ pos < new_pos ∧ new_pos ≤ self.len ∧
      self.data.drop pos = (self.data.drop pos).take (new_pos - pos) ++ self.data.drop new_pos := by
  obtain ⟨bytes, hencodes, hstarts, rfl⟩ := get_op_eq_some.mp hop
  have hpos := List.length_pos_iff.mpr hencodes.ne_nil
  have hlength := hstarts.length_le
  rw [List.length_drop] at hlength
  rw [Nat.add_sub_cancel_left, ← List.prefix_iff_eq_take.mp hstarts]
  refine ⟨hencodes, by omega, by unfold Script.len; omega, ?_⟩
  rw [← List.drop_drop]
  conv => lhs; rw [← List.take_append_drop bytes.length (self.data.drop pos), ← List.prefix_iff_eq_take.mp hstarts]

theorem Script.ops_from_congr (self : Script) : ∀ {fuel other pos : Nat}, self.len ≤ fuel + pos → self.len ≤ other + pos →
    self.ops_from fuel pos = self.ops_from other pos := by
  have hend : ∀ {fuel pos : Nat}, self.len ≤ pos → self.ops_from fuel pos = ([], self.data.drop pos) := by
    intro fuel pos hle
    cases fuel with
    | zero => rfl
    | succ fuel =>
      have hdrop : self.data.drop pos = [] := List.drop_eq_nil_of_le hle
      rw [Script.ops_from, Script.get_op, hdrop]
  intro fuel
  induction fuel with
  | zero =>
    intro other pos hfuel _
    rw [hend (by omega), hend (by omega)]
  | succ fuel ih =>
    intro other pos hfuel hother
    cases other with
    | zero => rw [hend (by omega), hend (by omega)]
    | succ other =>
      rw [Script.ops_from, Script.ops_from]
      cases hop : self.get_op pos with
      | none => rfl
      | some result =>
        obtain ⟨opcode, data, new_pos⟩ := result
        obtain ⟨-, hforward, -, -⟩ := get_op_bytes hop
        dsimp only
        rw [ih (by omega) (by omega : self.len ≤ other + new_pos)]

theorem Script.ops_from_none {fuel : Nat} (hop : self.get_op pos = none) :
    self.ops_from fuel pos = ([], self.data.drop pos) := by
  cases fuel with
  | zero => rfl
  | succ fuel => rw [Script.ops_from, hop]

theorem Script.ops_from_some (hop : self.get_op pos = some (opcode, data, new_pos)) :
    self.ops_from self.len pos = (⟨opcode, data, (self.data.drop pos).take (new_pos - pos)⟩ ::
      (self.ops_from self.len new_pos).1, (self.ops_from self.len new_pos).2) := by
  rw [self.ops_from_congr (by omega) (by omega : self.len ≤ self.len + 1 + pos), Script.ops_from, hop]

theorem Script.ops_from_bytes (self : Script) : ∀ fuel pos,
    (self.ops_from fuel pos).1.flatMap ScriptOp.bytes ++ (self.ops_from fuel pos).2 = self.data.drop pos := by
  intro fuel
  induction fuel with
  | zero => exact fun _ => rfl
  | succ fuel ih =>
    intro pos
    rw [Script.ops_from]
    cases hop : self.get_op pos with
    | none => rfl
    | some result =>
      obtain ⟨opcode, data, new_pos⟩ := result
      obtain ⟨-, -, -, hsplit⟩ := get_op_bytes hop
      dsimp only
      rw [List.flatMap_cons, List.append_assoc, ih new_pos, ← hsplit]

theorem Script.ops_bytes (self : Script) : self.ops.1.flatMap ScriptOp.bytes ++ self.ops.2 = self.data :=
  self.ops_from_bytes self.len 0

theorem Script.ops_from_encodes (self : Script) : ∀ {fuel pos : Nat}, ∀ op ∈ (self.ops_from fuel pos).1,
    Encodes op.opcode op.data op.bytes := by
  intro fuel
  induction fuel with
  | zero => exact fun _ hmem => nomatch hmem
  | succ fuel ih =>
    intro pos op hmem
    rw [Script.ops_from] at hmem
    cases hop : self.get_op pos with
    | none =>
      rw [hop] at hmem
      cases hmem
    | some result =>
      obtain ⟨opcode, data, new_pos⟩ := result
      rw [hop] at hmem
      obtain rfl | hmem := List.mem_cons.mp hmem
      · exact (get_op_bytes hop).1
      · exact ih op hmem

theorem Script.ops_encodes (self : Script) : ∀ op ∈ self.ops.1, Encodes op.opcode op.data op.bytes := self.ops_from_encodes

theorem get_op_append (front rest : List UInt8) (pos : Nat) : (Script.mk (front ++ rest)).get_op (front.length + pos) =
    ((Script.mk rest).get_op pos).map fun op => (op.1, op.2.1, front.length + op.2.2) := by
  have hdrop : (front ++ rest).drop (front.length + pos) = rest.drop pos := by
    rw [List.drop_append]
    rw [List.drop_eq_nil_of_le (Nat.le_add_right _ _), List.nil_append, Nat.add_sub_cancel_left]
  refine Option.ext fun op => ?_
  obtain ⟨opcode, data, new_pos⟩ := op
  rw [get_op_eq_some, Option.map_eq_some_iff]
  dsimp only
  rw [hdrop]
  constructor
  · rintro ⟨bytes, hencodes, hstarts, rfl⟩
    exact ⟨(opcode, data, pos + bytes.length), get_op_eq_some.mpr ⟨bytes, hencodes, hstarts, rfl⟩,
      by rw [Nat.add_assoc]⟩
  · rintro ⟨⟨opcode, data, next⟩, hop, heq⟩
    cases heq
    obtain ⟨bytes, hencodes, hstarts, rfl⟩ := get_op_eq_some.mp hop
    exact ⟨bytes, hencodes, hstarts, (Nat.add_assoc ..).symm⟩

theorem Script.ops_from_append (front rest : List UInt8) (fuel pos : Nat) :
    (Script.mk (front ++ rest)).ops_from fuel (front.length + pos) = (Script.mk rest).ops_from fuel pos := by
  have hdrop : ∀ pos, (front ++ rest).drop (front.length + pos) = rest.drop pos := by
    intro pos
    rw [List.drop_append, List.drop_eq_nil_of_le (Nat.le_add_right _ _), List.nil_append, Nat.add_sub_cancel_left]
  induction fuel generalizing pos with
  | zero => rw [Script.ops_from, Script.ops_from, hdrop]
  | succ fuel ih =>
    rw [Script.ops_from, Script.ops_from, get_op_append]
    cases (Script.mk rest).get_op pos with
    | none =>
      rw [Option.map_none]
      dsimp only
      rw [hdrop]
    | some op =>
      rw [Option.map_some]
      dsimp only
      rw [ih, hdrop, Nat.add_sub_add_left]

theorem Script.ops_cons {op : ScriptOp} (hencodes : Encodes op.opcode op.data op.bytes) (rest : List UInt8) :
    (Script.mk (op.bytes ++ rest)).ops = (op :: (Script.mk rest).ops.1, (Script.mk rest).ops.2) := by
  have hop : (Script.mk (op.bytes ++ rest)).get_op 0 = some (op.opcode, op.data, op.bytes.length) :=
    get_op_eq_some.mpr ⟨op.bytes, hencodes, List.prefix_append _ _, (Nat.zero_add _).symm⟩
  have hrest : (Script.mk (op.bytes ++ rest)).ops_from (Script.mk (op.bytes ++ rest)).len op.bytes.length =
      (Script.mk rest).ops := by
    have hshift := Script.ops_from_append op.bytes rest (Script.mk (op.bytes ++ rest)).len 0
    rw [Nat.add_zero] at hshift
    rw [hshift]
    refine Script.ops_from_congr _ ?_ (Nat.le_add_right _ _)
    unfold Script.len
    dsimp only
    rw [List.length_append]
    omega
  rw [Script.ops, Script.ops_from_some hop, hrest, Nat.sub_zero, List.drop_zero, List.take_left' rfl]

theorem Script.ops_append {ops : List ScriptOp} (hencodes : ∀ op ∈ ops, Encodes op.opcode op.data op.bytes)
    (rest : List UInt8) : (Script.mk (ops.flatMap ScriptOp.bytes ++ rest)).ops.1 = ops ++ (Script.mk rest).ops.1 := by
  induction ops with
  | nil => rfl
  | cons op ops ih =>
    rw [List.flatMap_cons, List.append_assoc, Script.ops_cons (hencodes op List.mem_cons_self),
      ih fun other hmem => hencodes other (List.mem_cons_of_mem op hmem), List.cons_append]

end qubitcoin.script

/-! Pushes of data and of numbers. -/

namespace qubitcoin.script

def Script.push_int (self : Script) (n : Int) : Script :=
  if n = -1 ∨ 1 ≤ n ∧ n ≤ 16 then ⟨self.data ++ [UInt8.ofInt n + 0x50]⟩
  else if n = 0 then ⟨self.data ++ [OP_0]⟩
  else self.push_data (interpreter.ScriptNum.encode_i64 n)

theorem push_data_short {data : List UInt8} (hlow : 1 ≤ data.length) (hhigh : data.length ≤ 75) (self : Script) :
    (self.push_data data).data = self.data ++ UInt8.ofNat data.length :: data := by
  rw [Script.push_data, if_neg (by omega), if_pos hhigh]
  simp only [List.append_assoc, List.cons_append, List.nil_append]

end qubitcoin.script

namespace qubitcoin.interpreter

theorem magnitude_ne_nil {fuel absvalue : Nat} (hpositive : 0 < absvalue) : magnitude (fuel + 1) absvalue ≠ [] := by
  rw [magnitude, if_neg (by omega)]
  exact List.cons_ne_nil _ _

theorem ofBytes_magnitude {fuel absvalue : Nat} (hfit : absvalue < 256 ^ fuel) :
    littleEndian.ofBytes (magnitude fuel absvalue) = absvalue := by
  induction fuel generalizing absvalue with
  | zero =>
    rw [Nat.pow_zero] at hfit
    rw [show absvalue = 0 by omega]
    rfl
  | succ fuel ih =>
    rw [magnitude]
    split
    · next hzero =>
      rw [hzero]
      rfl
    · rw [littleEndian.ofBytes, ih (by rw [Nat.pow_succ] at hfit; omega), UInt8.toNat_ofNat']
      omega

theorem encode_i64_pos {value : Int} (hpositive : 0 < value) :
    ScriptNum.encode_i64 value = magnitude 8 value.natAbs ∨
      ScriptNum.encode_i64 value = magnitude 8 value.natAbs ++ [0] := by
  unfold ScriptNum.encode_i64
  rw [if_neg (by omega)]
  dsimp only
  rw [decide_eq_false (by omega : ¬ value < 0)]
  split
  · exact .inl rfl
  · split
    · exact .inr rfl
    · exact .inl rfl

theorem ofBytes_encode_i64 {value : Int} (hpositive : 0 < value) (hfit : value < 2 ^ 64) :
    littleEndian.ofBytes (ScriptNum.encode_i64 value) = value.natAbs := by
  have hbytes : littleEndian.ofBytes (magnitude 8 value.natAbs) = value.natAbs := ofBytes_magnitude (by omega)
  obtain heq | heq := encode_i64_pos hpositive
  · rw [heq, hbytes]
  · rw [heq, littleEndian.ofBytes_concat, hbytes, show (0 : UInt8).toNat = 0 from rfl, Nat.zero_mul, Nat.add_zero]

theorem length_encode_i64_pos {value : Int} (hpositive : 0 < value) :
    1 ≤ (ScriptNum.encode_i64 value).length ∧ (ScriptNum.encode_i64 value).length ≤ 9 := by
  have hlength := length_magnitude_le 8 value.natAbs
  have hlow : 1 ≤ (magnitude 8 value.natAbs).length := List.length_pos_iff.mpr (magnitude_ne_nil (by omega))
  obtain heq | heq := encode_i64_pos hpositive
  · rw [heq]
    omega
  · rw [heq, List.length_append, List.length_singleton]
    omega

end qubitcoin.interpreter
