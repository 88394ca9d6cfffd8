import Qubitcoin.Script.Eval

/-! The evaluator never panics, and it keeps the limits on the stacks. Both follow from one
    walk over the opcodes: `counted` stands for the bounds on the counters, under which no
    failure may be a panic. -/

open qubitcoin.script outcome

namespace qubitcoin.interpreter.vm

/-- A panic, where the counters are known to be in bounds. -/
def Bad (counted : Prop) (e : Failure ScriptError) : Prop := counted ∧ ∃ why, e = .panic why

section

variable {counted : Prop}

theorem not_bad_invalid (e : ScriptError) : ¬ Bad counted (.invalid e) := by
  rintro ⟨-, why, heq⟩
  cases heq

theorem ensures_fail {A : Type} {Q : A → Prop} (e : ScriptError) : Ensures (Bad counted) (fail e) Q :=
  .error (not_bad_invalid e)

theorem ensures_ensure (c : Bool) (e : ScriptError) : Ensures (Bad counted) (ensure c e) fun _ => c = true := by
  unfold ensure require
  split
  · next h => exact h
  · exact not_bad_invalid e

theorem ensures_checked {type : IntType} {x : Int} (hfits : counted → type.fits x) :
    Ensures (Bad counted) (checked type x) fun y => y = x := by
  unfold checked
  split
  · rfl
  · next hnot => exact fun hbad => hnot (hfits hbad.1)

theorem ensures_add_u32 {x y : Nat} (hfits : counted → x + y < 2 ^ 32) :
    Ensures (Bad counted) (add_u32 x y) fun z => z = x + y := by
  unfold add_u32
  split
  · rfl
  · next hnot => exact fun hbad => hnot (hfits hbad.1)

theorem ensures_sub_u32 {x y : Nat} (hfits : y ≤ x) : Ensures (Bad counted) (sub_u32 x y) fun z => z = x - y := by
  rw [sub_u32, if_pos hfits]
  rfl

theorem ensures_index {bytes : List UInt8} {i : Nat} (hlt : i < bytes.length) :
    Ensures (Bad counted) (index bytes i) fun _ => True := by
  rw [index, List.getElem?_eq_getElem hlt]
  trivial

variable {stack : Stack}

theorem ensures_need (n : Nat) : Ensures (Bad counted) (stack.need n) fun _ => n ≤ stack.length :=
  (ensures_ensure _ _).mono fun _ h => of_decide_eq_true h

theorem ensures_top {k : Nat} (hlow : 1 ≤ k) (hhigh : k ≤ stack.length) :
    Ensures (Bad counted) (stack.top k) fun value => value ∈ stack := by
  have hlt : k - 1 < stack.length := by omega
  rw [Stack.top, List.getElem?_eq_getElem hlt]
  exact List.getElem_mem hlt

/-- The values of a stack come from another stack, or are within the size limit. -/
def From (stack result : Stack) : Prop := ∀ value ∈ result, value ∈ stack ∨ value.length ≤ MAX_SCRIPT_ELEMENT_SIZE

theorem from_pop : From stack stack.pop := fun _ hmem => .inl (List.mem_of_mem_tail hmem)

theorem From.trans {middle result : Stack} (hfirst : From stack middle) (hsecond : From middle result) :
    From stack result := by
  intro value hmem
  rcases hsecond value hmem with hmid | hsmall
  · exact hfirst value hmid
  · exact .inr hsmall

theorem From.cons {result : Stack} {value : StackValue} (hresult : From stack result)
    (hvalue : value ∈ stack ∨ value.length ≤ MAX_SCRIPT_ELEMENT_SIZE) : From stack (value :: result) := by
  intro other hmem
  rcases List.mem_cons.mp hmem with rfl | hrest
  · exact hvalue
  · exact hresult other hrest

theorem from_refl : From stack stack := fun _ hmem => .inl hmem

theorem ensures_swap_top {a b : Nat} (ha : 1 ≤ a ∧ a ≤ stack.length) (hb : 1 ≤ b ∧ b ≤ stack.length) :
    Ensures (Bad counted) (stack.swap_top a b) fun result => result.length = stack.length ∧ From stack result := by
  refine (ensures_top ha.1 ha.2).bind fun x hx => ?_
  refine (ensures_top hb.1 hb.2).bind fun y hy => ?_
  refine .pure ⟨by simp, fun value hmem => ?_⟩
  rcases List.mem_or_eq_of_mem_set hmem with hset | rfl
  · rcases List.mem_or_eq_of_mem_set hset with hold | rfl
    · exact .inl hold
    · exact .inl hy
  · exact .inl hx

theorem ensures_erase_top {k : Nat} (hk : k ≤ stack.length) :
    Ensures (Bad counted) (stack.erase_top k) (From stack) := by
  rw [Stack.erase_top, if_pos hk]
  exact fun value hmem => .inl (List.mem_of_mem_eraseIdx hmem)

theorem ensures_erase_top_range {start stop : Nat} (hstart : start ≤ stack.length) :
    Ensures (Bad counted) (stack.erase_top_range start stop) (From stack) := by
  rw [Stack.erase_top_range, if_pos hstart]
  intro value hmem
  rcases List.mem_append.mp hmem with htake | hdrop
  · exact .inl (List.mem_of_mem_take htake)
  · exact .inl (List.mem_of_mem_drop hdrop)

theorem ensures_insert_top {k : Nat} {value : StackValue} (hk : k ≤ stack.length) (hvalue : value ∈ stack) :
    Ensures (Bad counted) (stack.insert_top k value) (From stack) := by
  rw [Stack.insert_top, if_pos hk]
  intro other hmem
  rcases List.mem_append.mp hmem with htake | hrest
  · exact .inl (List.mem_of_mem_take htake)
  · rcases List.mem_cons.mp hrest with rfl | hdrop
    · exact .inl hvalue
    · exact .inl (List.mem_of_mem_drop hdrop)

theorem length_encode_i64_le (value : Int) : (ScriptNum.encode_i64 value).length ≤ 9 := by
  have hbound := length_magnitude_le 8 value.natAbs
  unfold ScriptNum.encode_i64
  split
  · exact Nat.zero_le 9
  · dsimp only
    split
    · omega
    · split
      · rw [List.length_append, List.length_singleton]
        omega
      · split
        · rw [List.length_append, List.length_singleton, List.length_dropLast]
          omega
        · omega

theorem small_encode_i64 (value : Int) : (ScriptNum.encode_i64 value).length ≤ MAX_SCRIPT_ELEMENT_SIZE :=
  (length_encode_i64_le value).trans (by decide)

theorem small_bool_value (b : Bool) : (bool_value b).length ≤ MAX_SCRIPT_ELEMENT_SIZE := by
  cases b <;> decide

theorem ensures_decode_bytes {vch : List UInt8} (hlength : vch.length ≤ 8) :
    Ensures (Bad counted) (decode_bytes vch) fun n => 2 * n.natAbs < 256 ^ vch.length := by
  rw [decode_bytes, if_neg (Nat.not_lt.mpr hlength)]
  rcases List.eq_nil_or_concat vch with rfl | ⟨before, last, rfl⟩
  · exact Nat.one_pos
  · have hlast := last.toNat_lt
    have hbefore := littleEndian.ofBytes_lt before
    have hpow : 256 ^ (before ++ [last]).length = 256 * 256 ^ before.length := by
      rw [List.length_append, List.length_singleton, Nat.pow_succ, Nat.mul_comm]
    rw [List.concat_eq_append, List.getLast?_concat]
    dsimp only [Ensures]
    rw [hpow, littleEndian.ofBytes_concat, List.length_append, List.length_singleton, Nat.add_sub_cancel]
    generalize littleEndian.ofBytes before = low at hbefore
    generalize hwidth : 256 ^ before.length = width at hbefore
    have hcast : ((256 : Int) ^ before.length) = (width : Int) := by
      rw [← hwidth]
      push_cast
      rfl
    rw [hcast]
    split
    · next hsign =>
      rw [sign_bit_iff] at hsign
      have hlow : 128 * width ≤ last.toNat * width := Nat.mul_le_mul_right width hsign
      have hhigh : last.toNat * width ≤ 255 * width := Nat.mul_le_mul_right width (by omega)
      generalize last.toNat * width = product at hlow hhigh ⊢
      omega
    · next hsign =>
      rw [sign_bit_iff, Nat.not_le] at hsign
      have hhigh : last.toNat * width ≤ 127 * width := Nat.mul_le_mul_right width (by omega)
      generalize last.toNat * width = product at hhigh ⊢
      omega

theorem ensures_script_num {val : List UInt8} {minimal : Bool} {max_size : Nat} (hmax : max_size ≤ 8) :
    Ensures (Bad counted) (stack_to_script_num val minimal max_size) fun n => 2 * n.natAbs < 256 ^ max_size := by
  refine (ensures_ensure _ _).bind fun _ hlength => ?_
  refine (ensures_ensure _ _).bind fun _ _ => ?_
  have hle : val.length ≤ max_size := of_decide_eq_true hlength
  refine (ensures_decode_bytes (hle.trans hmax)).mono fun n hn => ?_
  exact hn.trans_le (Nat.pow_le_pow_right (by decide) hle)

theorem StackOp.ensures_run (op : StackOp) : Ensures (Bad counted) (op.run stack) (From stack) := by
  cases op with
  | Op2Drop =>
    refine (ensures_need 2).bind fun _ _ => ?_
    exact .pure (from_pop.trans from_pop)
  | Op2Dup =>
    refine (ensures_need 2).bind fun _ hlen => ?_
    refine (ensures_top (by omega) hlen).bind fun v1 hv1 => ?_
    refine (ensures_top (by omega) (by omega)).bind fun v2 hv2 => ?_
    exact .pure ((from_refl.cons (.inl hv1)).cons (.inl hv2))
  | Op3Dup =>
    refine (ensures_need 3).bind fun _ hlen => ?_
    refine (ensures_top (by omega) hlen).bind fun v1 hv1 => ?_
    refine (ensures_top (by omega) (by omega)).bind fun v2 hv2 => ?_
    refine (ensures_top (by omega) (by omega)).bind fun v3 hv3 => ?_
    exact .pure (((from_refl.cons (.inl hv1)).cons (.inl hv2)).cons (.inl hv3))
  | Op2Over =>
    refine (ensures_need 4).bind fun _ hlen => ?_
    refine (ensures_top (by omega) hlen).bind fun v1 hv1 => ?_
    refine (ensures_top (by omega) (by omega)).bind fun v2 hv2 => ?_
    exact .pure ((from_refl.cons (.inl hv1)).cons (.inl hv2))
  | Op2Rot =>
    refine (ensures_need 6).bind fun _ hlen => ?_
    refine (ensures_top (by omega) hlen).bind fun v1 hv1 => ?_
    refine (ensures_top (by omega) (by omega)).bind fun v2 hv2 => ?_
    refine (ensures_erase_top_range hlen).bind fun rest hrest => ?_
    exact .pure ((hrest.cons (.inl hv1)).cons (.inl hv2))
  | Op2Swap =>
    refine (ensures_need 4).bind fun _ hlen => ?_
    refine (ensures_swap_top ⟨by omega, hlen⟩ ⟨by omega, by omega⟩).bind fun swapped hswapped => ?_
    refine (ensures_swap_top ⟨by omega, by omega⟩ ⟨by omega, by omega⟩).mono fun result hresult => ?_
    exact hswapped.2.trans hresult.2
  | OpIfDup =>
    refine (ensures_need 1).bind fun _ hlen => ?_
    refine (ensures_top (by omega) hlen).bind fun vch hvch => .pure ?_
    split
    · exact from_refl.cons (.inl hvch)
    · exact from_refl
  | OpDepth => exact .pure (from_refl.cons (.inr (small_encode_i64 _)))
  | OpDrop =>
    refine (ensures_need 1).bind fun _ _ => ?_
    exact .pure from_pop
  | OpDup =>
    refine (ensures_need 1).bind fun _ hlen => ?_
    refine (ensures_top (by omega) hlen).bind fun vch hvch => ?_
    exact .pure (from_refl.cons (.inl hvch))
  | OpNip =>
    refine (ensures_need 2).bind fun _ hlen => ?_
    exact ensures_erase_top hlen
  | OpOver =>
    refine (ensures_need 2).bind fun _ hlen => ?_
    refine (ensures_top (by omega) hlen).bind fun vch hvch => ?_
    exact .pure (from_refl.cons (.inl hvch))
  | OpRot =>
    refine (ensures_need 3).bind fun _ hlen => ?_
    refine (ensures_swap_top ⟨by omega, hlen⟩ ⟨by omega, by omega⟩).bind fun swapped hswapped => ?_
    refine (ensures_swap_top ⟨by omega, by omega⟩ ⟨by omega, by omega⟩).mono fun result hresult => ?_
    exact hswapped.2.trans hresult.2
  | OpSwap =>
    refine (ensures_need 2).bind fun _ hlen => ?_
    exact (ensures_swap_top ⟨by omega, hlen⟩ ⟨by omega, by omega⟩).mono fun _ hresult => hresult.2
  | OpTuck =>
    refine (ensures_need 2).bind fun _ hlen => ?_
    refine (ensures_top (by omega) (by omega)).bind fun vch hvch => ?_
    exact ensures_insert_top hlen hvch
  | OpSize =>
    refine (ensures_need 1).bind fun _ hlen => ?_
    refine (ensures_top (by omega) hlen).bind fun vch _ => ?_
    exact .pure (from_refl.cons (.inr (small_encode_i64 _)))

theorem ensures_push_result (verify result : Bool) (e : ScriptError) :
    Ensures (Bad counted) (push_result verify result e stack) (From stack) := by
  refine .ite (fun _ => ?_) fun _ => .pure (from_refl.cons (.inr (small_bool_value result)))
  exact (ensures_ensure _ _).bind fun _ _ => .pure from_refl

theorem ensures_op_pick (minimal roll : Bool) : Ensures (Bad counted) (op_pick minimal roll stack) (From stack) := by
  refine (ensures_need 2).bind fun _ hlen => ?_
  refine (ensures_top (by omega) (by omega)).bind fun n_val _ => ?_
  refine (ensures_script_num (by decide)).bind fun n _ => ?_
  refine (ensures_ensure _ _).bind fun _ hdepth => ?_
  obtain ⟨-, hdepth⟩ := of_decide_eq_true hdepth
  refine (ensures_top (by omega) hdepth).bind fun vch hvch => ?_
  have hvalue : vch ∈ stack := List.mem_of_mem_tail hvch
  have hrolled : Ensures (Bad counted) (if roll = true then stack.pop.erase_top ((ScriptNum.getint n).toNat + 1)
      else pure stack.pop) (From stack.pop) :=
    .ite (fun _ => ensures_erase_top hdepth) fun _ => .pure from_refl
  refine hrolled.bind fun rest hrest => ?_
  exact .pure ((from_pop.trans hrest).cons (.inl hvalue))

theorem ensures_op_equal (verify : Bool) : Ensures (Bad counted) (op_equal verify stack) (From stack) := by
  refine (ensures_need 2).bind fun _ hlen => ?_
  refine (ensures_top (by omega) hlen).bind fun v1 _ => ?_
  refine (ensures_top (by omega) (by omega)).bind fun v2 _ => ?_
  exact (ensures_push_result verify _ _).mono fun _ hresult => (from_pop.trans from_pop).trans hresult

theorem UnaryOp.ensures_apply (op : UnaryOp) {bn : Int} (hbn : 2 * bn.natAbs < 256 ^ DEFAULT_MAX_NUM_SIZE) :
    Ensures (Bad counted) (op.apply bn) fun _ => True := by
  have hbound : 2 * bn.natAbs < 4294967296 := hbn
  have hchecked : ∀ {x : Int}, x.natAbs ≤ bn.natAbs + 1 →
      Ensures (Bad counted) (checked .i64 x) fun _ => True := by
    intro x hx
    refine (ensures_checked fun _ => ?_).mono fun _ _ => trivial
    constructor <;> omega
  cases op with
  | Op1Add => exact hchecked (by omega)
  | Op1Sub => exact hchecked (by omega)
  | OpNegate => exact hchecked (by omega)
  | OpAbs => exact .ite (fun _ => hchecked (by omega)) fun _ => .pure trivial
  | OpNot => exact .pure trivial
  | Op0NotEqual => exact .pure trivial

theorem ensures_op_unary (minimal : Bool) (op : UnaryOp) :
    Ensures (Bad counted) (op_unary minimal op stack) (From stack) := by
  refine (ensures_need 1).bind fun _ hlen => ?_
  refine (ensures_top (by omega) hlen).bind fun val _ => ?_
  refine (ensures_script_num (by decide)).bind fun bn hbn => ?_
  refine (op.ensures_apply hbn).bind fun result _ => ?_
  exact .pure (from_pop.cons (.inr (small_encode_i64 result)))

theorem BinaryOp.ensures_apply (op : BinaryOp) {bn1 bn2 : Int} (hbn1 : 2 * bn1.natAbs < 256 ^ DEFAULT_MAX_NUM_SIZE)
    (hbn2 : 2 * bn2.natAbs < 256 ^ DEFAULT_MAX_NUM_SIZE) :
    Ensures (Bad counted) (op.apply bn1 bn2) fun _ => True := by
  have hbound1 : 2 * bn1.natAbs < 4294967296 := hbn1
  have hbound2 : 2 * bn2.natAbs < 4294967296 := hbn2
  have hchecked : ∀ {x : Int}, x.natAbs ≤ bn1.natAbs + bn2.natAbs →
      Ensures (Bad counted) (checked .i64 x) fun _ => True := by
    intro x hx
    refine (ensures_checked fun _ => ?_).mono fun _ _ => trivial
    constructor <;> omega
  cases op with
  | OpAdd => exact hchecked (by omega)
  | OpSub => exact hchecked (by omega)
  | _ => exact .pure trivial

theorem ensures_op_binary (minimal : Bool) (op : BinaryOp) (verify : Bool) :
    Ensures (Bad counted) (op_binary minimal op verify stack) (From stack) := by
  refine (ensures_need 2).bind fun _ hlen => ?_
  refine (ensures_top (by omega) hlen).bind fun v1 _ => ?_
  refine (ensures_top (by omega) (by omega)).bind fun v2 _ => ?_
  refine (ensures_script_num (by decide)).bind fun bn1 hbn1 => ?_
  refine (ensures_script_num (by decide)).bind fun bn2 hbn2 => ?_
  refine (op.ensures_apply hbn1 hbn2).bind fun result _ => ?_
  refine .ite (fun _ => ?_) fun _ => ?_
  · refine Ensures.bind (ensures_top (Nat.le_refl 1) (by simp)) fun value _ => ?_
    exact (ensures_ensure _ _).bind fun _ _ => .pure (from_pop.trans from_pop)
  · exact .pure ((from_pop.trans from_pop).cons (.inr (small_encode_i64 result)))

theorem ensures_op_within (minimal : Bool) : Ensures (Bad counted) (op_within minimal stack) (From stack) := by
  refine (ensures_need 3).bind fun _ hlen => ?_
  refine (ensures_top (by omega) hlen).bind fun v1 _ => ?_
  refine (ensures_top (by omega) (by omega)).bind fun v2 _ => ?_
  refine (ensures_top (by omega) (by omega)).bind fun v3 _ => ?_
  refine (ensures_script_num (by decide)).bind fun bn1 _ => ?_
  refine (ensures_script_num (by decide)).bind fun bn2 _ => ?_
  refine (ensures_script_num (by decide)).bind fun bn3 _ => ?_
  exact .pure (((from_pop.trans from_pop).trans from_pop).cons (.inr (small_bool_value _)))

theorem HashOp.small_digest (crypto : Crypto) (vch : List UInt8) (op : HashOp) :
    (op.digest crypto vch).length ≤ MAX_SCRIPT_ELEMENT_SIZE := by
  have hlong : ∀ {n : Nat} (digest : Digest n), n ≤ MAX_SCRIPT_ELEMENT_SIZE →
      digest.val.length ≤ MAX_SCRIPT_ELEMENT_SIZE := fun digest hn => digest.property.trans_le hn
  cases op <;> exact hlong _ (by decide)

theorem ensures_op_hash (crypto : Crypto) (op : HashOp) :
    Ensures (Bad counted) (op_hash crypto op stack) (From stack) := by
  refine (ensures_need 1).bind fun _ hlen => ?_
  refine (ensures_top (by omega) hlen).bind fun vch _ => ?_
  exact .pure (from_pop.cons (.inr (op.small_digest crypto vch)))

theorem ensures_op_verify : Ensures (Bad counted) (op_verify stack) (From stack) := by
  refine (ensures_need 1).bind fun _ hlen => ?_
  refine (ensures_top (by omega) hlen).bind fun vch _ => ?_
  exact (ensures_ensure _ _).bind fun _ _ => .pure from_pop

theorem ensures_lock_operand (minimal : Bool) :
    Ensures (Bad counted) (lock_operand minimal stack) fun n => 0 ≤ n ∧ n < 2 ^ 39 := by
  refine (ensures_need 1).bind fun _ hlen => ?_
  refine (ensures_top (by omega) hlen).bind fun vch _ => ?_
  refine (ensures_script_num (by decide)).bind fun n hn => ?_
  refine (ensures_ensure _ _).bind fun _ hsign => ?_
  have hlow : 0 ≤ n := of_decide_eq_true hsign
  have hhigh : 2 * n.natAbs < 1099511627776 := hn
  exact .pure ⟨hlow, by omega⟩

theorem ensures_op_check_lock_time_verify (checker : SignatureChecker) (flags : UInt32) :
    Ensures (Bad counted) (op_check_lock_time_verify checker flags stack) fun _ => True := by
  refine .ite (fun _ => ?_) fun _ => .pure trivial
  refine (ensures_lock_operand _).bind fun n _ => ?_
  exact (ensures_ensure _ _).mono fun _ _ => trivial

theorem ensures_op_check_sequence_verify (checker : SignatureChecker) (flags : UInt32) :
    Ensures (Bad counted) (op_check_sequence_verify checker flags stack) fun _ => True := by
  refine .ite (fun _ => ?_) fun _ => .pure trivial
  refine (ensures_lock_operand _).bind fun n _ => ?_
  exact .ite (fun _ => .pure trivial) fun _ => (ensures_ensure _ _).mono fun _ _ => trivial

theorem ensures_only_if {c : Bool} {x : Run Unit} (hx : c = true → Ensures (Bad counted) x fun _ => True) :
    Ensures (Bad counted) (only_if c x) fun _ => True :=
  .ite hx fun _ => .pure trivial

theorem ensures_is_compressed_or_uncompressed_pubkey (pubkey : List UInt8) :
    Ensures (Bad counted) (is_compressed_or_uncompressed_pubkey pubkey) fun _ => True := by
  refine .ite (fun _ => .pure trivial) fun hlength => ?_
  refine (ensures_index (by omega)).bind fun first _ => ?_
  exact .ite (fun _ => .pure trivial) fun _ => .ite (fun _ => .pure trivial) fun _ => .pure trivial

theorem ensures_is_compressed_pubkey (pubkey : List UInt8) :
    Ensures (Bad counted) (is_compressed_pubkey pubkey) fun _ => True := by
  refine .ite (fun hlength => ?_) fun _ => .pure trivial
  exact (ensures_index (by omega)).bind fun first _ => .pure trivial

theorem ensures_is_valid_integer {sig : List UInt8} {start len : Nat} (hrange : start + len ≤ sig.length) :
    Ensures (Bad counted) (is_valid_integer sig start len) fun _ => True := by
  refine .ite (fun _ => .pure trivial) fun hlen => ?_
  refine (ensures_index (by omega)).bind fun first _ => ?_
  refine .ite (fun _ => .pure trivial) fun _ => .ite (fun hlong => ?_) fun _ => .pure trivial
  exact (ensures_index (by omega)).bind fun second _ => .pure trivial

theorem ensures_is_valid_signature_encoding (sig : List UInt8) :
    Ensures (Bad counted) (is_valid_signature_encoding sig) fun _ => True := by
  refine .ite (fun _ => .pure trivial) fun hlength => ?_
  refine (ensures_index (by omega)).bind fun tag _ => ?_
  refine (ensures_index (by omega)).bind fun total _ => ?_
  refine (ensures_index (by omega)).bind fun tag_r _ => ?_
  refine (ensures_index (by omega)).bind fun byte_r _ => ?_
  refine .ite (fun _ => .pure trivial) fun hr => ?_
  refine (ensures_index (by omega)).bind fun byte_s _ => ?_
  refine .ite (fun _ => .pure trivial) fun hs => ?_
  refine (ensures_is_valid_integer (by omega)).bind fun valid_r _ => ?_
  refine (ensures_index (by omega)).bind fun tag_s _ => ?_
  exact (ensures_is_valid_integer (by omega)).bind fun valid_s _ => .pure trivial

theorem ensures_is_low_der_signature (crypto : Crypto) (sig : List UInt8) :
    Ensures (Bad counted) (is_low_der_signature crypto sig) fun _ => True := by
  refine (ensures_is_valid_signature_encoding sig).bind fun valid _ => ?_
  refine (ensures_ensure _ _).bind fun _ _ => ?_
  split
  · exact (ensures_ensure _ _).mono fun _ _ => trivial
  · exact ensures_fail _

theorem ensures_check_signature_encoding (crypto : Crypto) (flags : UInt32) (sig : List UInt8) :
    Ensures (Bad counted) (check_signature_encoding crypto flags sig) fun _ => True := by
  refine .ite (fun _ => .pure trivial) fun _ => ?_
  refine Ensures.bind (ensures_only_if fun _ => ?_) fun _ _ => ?_
  · refine (ensures_is_valid_signature_encoding sig).bind fun valid _ => ?_
    exact (ensures_ensure _ _).mono fun _ _ => trivial
  · refine (ensures_only_if fun _ => ensures_is_low_der_signature crypto sig).bind fun _ _ => ?_
    exact ensures_only_if fun _ => (ensures_ensure _ _).mono fun _ _ => trivial

theorem ensures_check_pubkey_encoding (flags : UInt32) (pubkey : List UInt8) (sigversion : SigVersion) :
    Ensures (Bad counted) (check_pubkey_encoding flags pubkey sigversion) fun _ => True := by
  refine Ensures.bind (ensures_only_if fun _ => ?_) fun _ _ => ensures_only_if fun _ => ?_
  · refine (ensures_is_compressed_or_uncompressed_pubkey pubkey).bind fun valid _ => ?_
    exact (ensures_ensure _ _).mono fun _ _ => trivial
  · refine (ensures_is_compressed_pubkey pubkey).bind fun valid _ => ?_
    exact (ensures_ensure _ _).mono fun _ _ => trivial

variable {crypto : Crypto} {checker : SignatureChecker} {flags : UInt32} {sigversion : SigVersion} {script : Script}

theorem ensures_script_code {pbegincodehash : Nat} (hbegin : counted → pbegincodehash ≤ script.len) :
    Ensures (Bad counted) (script_code script pbegincodehash) fun _ => True :=
  .ite (fun _ => trivial) fun hnot => fun hbad => hnot (hbegin hbad.1)

theorem ensures_drop_signature (code : Script) (vch_sig : List UInt8) :
    Ensures (Bad counted) (drop_signature flags sigversion code vch_sig) fun _ => True := by
  refine .ite (fun _ => ?_) fun _ => .pure trivial
  exact (ensures_ensure _ _).bind fun _ _ => .pure trivial

theorem ensures_checksig_ecdsa {state : State} (hbegin : counted → state.pbegincodehash ≤ script.len)
    (vch_sig vch_pubkey : List UInt8) :
    Ensures (Bad counted) (checksig_ecdsa crypto checker flags sigversion script state vch_sig vch_pubkey)
      fun _ => True := by
  refine (ensures_script_code hbegin).bind fun code _ => ?_
  refine (ensures_drop_signature code vch_sig).bind fun code _ => ?_
  refine (ensures_check_signature_encoding crypto flags vch_sig).bind fun _ _ => ?_
  refine (ensures_check_pubkey_encoding flags vch_pubkey sigversion).bind fun _ _ => ?_
  exact (ensures_ensure _ _).bind fun _ _ => .pure trivial

/-- A charge to the validation weight does not overflow. -/
def Chargeable (exec_data : ScriptExecutionData) : Prop :=
  exec_data.validation_weight_left_init = true →
    -2 ^ 63 + 50 ≤ exec_data.validation_weight_left ∧ exec_data.validation_weight_left < 2 ^ 63

theorem ensures_charge_weight {exec_data : ScriptExecutionData} (hweight : counted → Chargeable exec_data) :
    Ensures (Bad counted) (charge_weight exec_data) fun charged => counted → Chargeable charged := by
  refine .ite (fun hinit => ?_) fun _ => .pure hweight
  have hfits : counted → IntType.i64.fits (exec_data.validation_weight_left - VALIDATION_WEIGHT_PER_SIGOP_PASSED) := by
    intro hcounted
    obtain ⟨hlow, hhigh⟩ := hweight hcounted hinit
    unfold VALIDATION_WEIGHT_PER_SIGOP_PASSED
    constructor <;> omega
  refine (ensures_checked hfits).bind fun left hleft => ?_
  refine (ensures_ensure _ _).bind fun _ hpositive => .pure fun hcounted _ => ?_
  obtain ⟨-, hhigh⟩ := hweight hcounted hinit
  have hlow : 0 ≤ left := of_decide_eq_true hpositive
  unfold VALIDATION_WEIGHT_PER_SIGOP_PASSED at hleft
  dsimp only
  constructor <;> omega

theorem ensures_checksig_tapscript {exec_data : ScriptExecutionData} (hweight : counted → Chargeable exec_data)
    (vch_sig vch_pubkey : List UInt8) :
    Ensures (Bad counted) (checksig_tapscript checker flags sigversion exec_data vch_sig vch_pubkey)
      fun result => counted → Chargeable result.2 := by
  have hcharged : Ensures (Bad counted)
      (if vch_sig.isEmpty = true then pure exec_data else charge_weight exec_data)
      (fun charged => counted → Chargeable charged) :=
    .ite (fun _ => .pure hweight) fun _ => ensures_charge_weight hweight
  refine hcharged.bind fun charged hafter => ?_
  have hkey : Ensures (Bad counted) (check_tapscript_key checker flags sigversion charged vch_sig vch_pubkey)
      fun _ => True := by
    refine .ite (fun _ => ensures_fail _) fun _ => .ite (fun _ => ensures_only_if fun _ => ?_) fun _ => ?_
    · cases checker.check_schnorr_signature vch_sig vch_pubkey sigversion charged with
      | ok _ => trivial
      | error e => exact not_bad_invalid e
    · exact (ensures_ensure _ _).mono fun _ _ => trivial
  exact hkey.bind fun _ _ => .pure hafter

theorem bmod_le_self (size width : Nat) : Int.bmod size width ≤ size := by
  have hmod : ((size % width : Nat) : Int) ≤ size := Int.ofNat_le.mpr (Nat.mod_le size width)
  rw [Int.natCast_mod] at hmod
  rw [Int.bmod_def]
  split <;> omega

theorem ensures_need_i32 (i : Nat) : Ensures (Bad counted) (need_i32 stack i) fun _ => i ≤ stack.length := by
  have hsize : size_as_i32 stack.length ≤ stack.length := by
    unfold size_as_i32
    exact bmod_le_self _ _
  refine (ensures_ensure _ _).mono fun _ h => ?_
  have hle := of_decide_eq_true h
  omega

theorem ensures_multisig_count {i bound : Nat} (hlow : 1 ≤ i) (hhigh : i ≤ stack.length) (e : ScriptError) :
    Ensures (Bad counted) (multisig_count flags stack i bound e) fun n => n ≤ bound := by
  refine (ensures_top hlow hhigh).bind fun val _ => ?_
  refine (ensures_script_num (by decide)).bind fun n _ => ?_
  refine (ensures_ensure _ _).bind fun _ h => ?_
  have hrange := of_decide_eq_true h
  exact .pure (by omega)

theorem ensures_drop_signatures {count isig : Nat} (hlow : 1 ≤ isig) (hhigh : isig + count ≤ stack.length + 1)
    (code : Script) :
    Ensures (Bad counted) (drop_signatures flags sigversion stack count isig code) fun _ => True := by
  induction count generalizing isig code with
  | zero => exact .pure trivial
  | succ count ih =>
    refine (ensures_top hlow (by omega)).bind fun vch_sig _ => ?_
    exact (ensures_drop_signature code vch_sig).bind fun code _ => ih (by omega) (by omega) code

theorem ensures_match_signatures {n_keys isig ikey n_sigs : Nat} (hsigs : n_sigs ≤ n_keys) (hisig : 1 ≤ isig)
    (hikey : 1 ≤ ikey) (hisig_high : isig + n_sigs ≤ stack.length + 1) (hikey_high : ikey + n_keys ≤ stack.length + 1)
    (code : Script) :
    Ensures (Bad counted)
      (match_signatures crypto checker flags sigversion stack code n_keys isig ikey n_sigs) fun _ => True := by
  induction n_keys generalizing isig ikey n_sigs with
  | zero =>
    obtain rfl : n_sigs = 0 := by omega
    exact .pure trivial
  | succ n_keys ih =>
    cases n_sigs with
    | zero => exact .pure trivial
    | succ n_sigs =>
      refine (ensures_top hisig (by omega)).bind fun vch_sig _ => ?_
      refine (ensures_top hikey (by omega)).bind fun vch_pubkey _ => ?_
      refine (ensures_check_signature_encoding crypto flags vch_sig).bind fun _ _ => ?_
      refine (ensures_check_pubkey_encoding flags vch_pubkey sigversion).bind fun _ _ => ?_
      refine .ite (fun _ => .pure trivial) fun hleft => ?_
      split at hleft <;> split <;> exact ih (by omega) (by omega) (by omega) (by omega) (by omega)

theorem ensures_clean_up {f_success : Bool} {count ikey2 : Nat} (hcount : count ≤ stack.length) :
    Ensures (Bad counted) (clean_up flags f_success count ikey2 stack) (From stack) := by
  induction count generalizing ikey2 stack with
  | zero => exact .pure from_refl
  | succ count ih =>
    have hchecked : Ensures (Bad counted)
        (only_if (!f_success && contains flags ScriptVerifyFlags.NULLFAIL && ikey2 == 0) do
          let value ← stack.top 1
          ensure value.isEmpty .SigNullFail) fun _ => True := by
      refine ensures_only_if fun _ => (ensures_top (by omega) (by omega)).bind fun value _ => ?_
      exact (ensures_ensure _ _).mono fun _ _ => trivial
    refine hchecked.bind fun _ _ => ?_
    have hpop : count ≤ stack.pop.length := by
      rw [Stack.pop, List.length_tail]
      omega
    exact (ih hpop).mono fun _ hrest => from_pop.trans hrest

theorem ensures_op_checkmultisig {state : State} (hbegin : counted → state.pbegincodehash ≤ script.len)
    (hops : counted → state.op_count ≤ MAX_OPS_PER_SCRIPT) (verify : Bool) :
    Ensures (Bad counted) (op_checkmultisig crypto checker flags sigversion script verify state) fun next =>
      ∃ stack op_count, next = { state with stack, op_count } ∧ From state.stack stack ∧
        op_count ≤ MAX_OPS_PER_SCRIPT := by
  have hmax : MAX_PUBKEYS_PER_MULTISIG = 20 := rfl
  have hlimit : MAX_OPS_PER_SCRIPT = 201 := rfl
  refine (ensures_ensure _ _).bind fun _ _ => ?_
  refine (ensures_need_i32 1).bind fun _ hone => ?_
  refine (ensures_multisig_count (Nat.le_refl 1) hone _).bind fun n_keys hkeys => ?_
  refine (ensures_add_u32 fun hcounted => ?_).bind fun op_count _ => ?_
  · have hbound := hops hcounted
    omega
  refine (ensures_ensure _ _).bind fun _ hcount => ?_
  refine (ensures_need_i32 _).bind fun _ htwo => ?_
  refine (ensures_multisig_count (by omega) htwo _).bind fun n_sigs hsigs => ?_
  refine (ensures_need_i32 _).bind fun _ hthree => ?_
  refine (ensures_script_code hbegin).bind fun code _ => ?_
  refine (ensures_drop_signatures (by omega) (by omega) code).bind fun code _ => ?_
  refine (ensures_match_signatures hsigs (by omega) (by omega) (by omega) (by omega) code).bind fun f_success _ => ?_
  refine (ensures_clean_up (by omega)).bind fun stack hstack => ?_
  refine (ensures_need 1).bind fun _ hdummy => ?_
  refine (ensures_top (Nat.le_refl 1) hdummy).bind fun dummy _ => ?_
  refine (ensures_ensure _ _).bind fun _ _ => ?_
  refine (ensures_push_result verify f_success _).bind fun result hresult => ?_
  exact .pure ⟨result, op_count, rfl, (hstack.trans from_pop).trans hresult, of_decide_eq_true hcount⟩

theorem ensures_eval_checksig {state : State} (hbegin : counted → state.pbegincodehash ≤ script.len)
    (hweight : counted → Chargeable state.exec_data) (vch_sig vch_pubkey : List UInt8) :
    Ensures (Bad counted) (eval_checksig crypto checker flags sigversion script state vch_sig vch_pubkey)
      fun result => counted → Chargeable result.2 := by
  refine .ite (fun _ => ?_) fun _ => .ite (fun _ => ?_) fun _ => .pure hweight
  · exact (ensures_checksig_ecdsa hbegin vch_sig vch_pubkey).bind fun f_success _ => .pure hweight
  · exact ensures_checksig_tapscript hweight vch_sig vch_pubkey

theorem ensures_op_checksig {state : State} (hbegin : counted → state.pbegincodehash ≤ script.len)
    (hweight : counted → Chargeable state.exec_data) (verify : Bool) :
    Ensures (Bad counted) (op_checksig crypto checker flags sigversion script verify state) fun next =>
      ∃ stack exec_data, next = { state with stack, exec_data } ∧ From state.stack stack ∧
        (counted → Chargeable exec_data) := by
  refine (ensures_need 2).bind fun _ hlen => ?_
  refine (ensures_top (by omega) hlen).bind fun vch_sig _ => ?_
  refine (ensures_top (by omega) (by omega)).bind fun vch_pubkey _ => ?_
  refine (ensures_eval_checksig hbegin hweight vch_sig vch_pubkey).bind fun result hafter => ?_
  refine (ensures_push_result verify result.1 _).bind fun stack hstack => ?_
  exact .pure ⟨stack, result.2, rfl, (from_pop.trans from_pop).trans hstack, hafter⟩

theorem ensures_op_checksigadd {state : State} (hweight : counted → Chargeable state.exec_data) :
    Ensures (Bad counted) (op_checksigadd checker flags sigversion state) fun next =>
      ∃ stack exec_data, next = { state with stack, exec_data } ∧ From state.stack stack ∧
        (counted → Chargeable exec_data) := by
  refine (ensures_ensure _ _).bind fun _ _ => ?_
  refine (ensures_need 3).bind fun _ hlen => ?_
  refine (ensures_top (by omega) hlen).bind fun sig _ => ?_
  refine (ensures_top (by omega) (by omega)).bind fun num_val _ => ?_
  refine (ensures_top (by omega) (by omega)).bind fun pubkey _ => ?_
  refine (ensures_script_num (by decide)).bind fun num hnum => ?_
  refine (ensures_checksig_tapscript hweight sig pubkey).bind fun result hafter => ?_
  have hbound : 2 * num.natAbs < 4294967296 := hnum
  refine (ensures_checked fun _ => ?_).bind fun sum _ => ?_
  · split <;> constructor <;> omega
  · exact .pure ⟨_, _, rfl, ((from_pop.trans from_pop).trans from_pop).cons (.inr (small_encode_i64 sum)), hafter⟩

variable {vf_exec : ConditionStack}

theorem ensures_push_back {f : Bool} (hfits : counted → vf_exec.stack_size + 1 < 2 ^ 32) :
    Ensures (Bad counted) (vf_exec.push_back f) fun next => next.stack_size = vf_exec.stack_size + 1 :=
  (ensures_add_u32 hfits).bind fun _ hsize => .pure hsize

theorem ensures_pop_back (hopen : 1 ≤ vf_exec.stack_size) :
    Ensures (Bad counted) vf_exec.pop_back fun next => next.stack_size ≤ vf_exec.stack_size := by
  refine (ensures_sub_u32 hopen).bind fun size hsize => .pure ?_
  dsimp only
  omega

theorem ensures_toggle_top (hopen : 1 ≤ vf_exec.stack_size) :
    Ensures (Bad counted) vf_exec.toggle_top fun next => next.stack_size = vf_exec.stack_size := by
  refine (ensures_sub_u32 hopen).bind fun top _ => ?_
  exact .ite (fun _ => .pure rfl) fun _ => .ite (fun _ => .pure rfl) fun _ => .pure rfl

theorem open_of_not_empty (hopen : (!vf_exec.empty) = true) : 1 ≤ vf_exec.stack_size := by
  have hne : vf_exec.stack_size ≠ 0 := by simpa [ConditionStack.empty] using hopen
  omega

theorem ensures_op_if {state : State} (hfits : counted → state.vf_exec.stack_size + 1 < 2 ^ 32)
    (f_exec negated : Bool) :
    Ensures (Bad counted) (op_if flags sigversion f_exec negated state) fun next =>
      ∃ stack vf_exec, next = { state with stack, vf_exec } ∧ From state.stack stack ∧
        vf_exec.stack_size = state.vf_exec.stack_size + 1 := by
  refine .ite (fun _ => ?_) fun _ => ?_
  · refine (ensures_need 1).bind fun _ hlen => ?_
    refine (ensures_top (Nat.le_refl 1) hlen).bind fun vch _ => ?_
    refine (ensures_ensure _ _).bind fun _ _ => ?_
    refine (ensures_ensure _ _).bind fun _ _ => ?_
    exact (ensures_push_back hfits).bind fun vf_exec hsize => .pure ⟨_, vf_exec, rfl, from_pop, hsize⟩
  · exact (ensures_push_back hfits).bind fun vf_exec hsize => .pure ⟨_, vf_exec, rfl, from_refl, hsize⟩

end

end qubitcoin.interpreter.vm
