import Qubitcoin.Script.Parse
import Qubitcoin.Validation.CheckBlock

/-! The block heights in coinbases. -/

open qubitcoin script transaction block params interpreter

namespace qubitcoin.validation

theorem magnitude_bytes_eq (fuel v : Nat) : magnitude_bytes fuel v = magnitude fuel v := by
  induction fuel generalizing v with
  | zero => rfl
  | succ fuel ih => rw [magnitude_bytes, magnitude, ih]

theorem encode_height_large {height : Int} (hlarge : 16 < height) :
    encode_height height = UInt8.ofNat (ScriptNum.encode_i64 height).length :: ScriptNum.encode_i64 height := by
  unfold encode_height ScriptNum.encode_i64
  rw [if_neg (by omega), if_neg (by omega), if_neg (by omega), magnitude_bytes_eq,
    decide_eq_false (by omega : ¬ height < 0)]
  dsimp only
  cases (magnitude 8 height.natAbs).getLast? with
  | none => rfl
  | some last => rfl

theorem push_int_encode_height {height : Int} (hlow : 0 ≤ height) (script : Script) :
    (script.push_int height).data = script.data ++ encode_height height := by
  unfold Script.push_int
  by_cases hzero : height = 0
  · rw [if_neg (by omega), if_pos hzero, hzero]
    rfl
  · by_cases hsmall : height ≤ 16
    · have hcode : 1 ≤ height ∧ height ≤ 16 := by omega
      rw [if_pos (.inr hcode), encode_height, if_neg hzero, if_pos hcode, UInt8.add_comm]
      have hbyte : UInt8.ofInt height = UInt8.ofNat height.toNat := by
        have hmod : height % 2 ^ 8 = height := Int.emod_eq_of_lt hlow (by omega)
        rw [UInt8.ofInt, hmod]
      rw [hbyte]
    · obtain ⟨hlength, hshort⟩ := length_encode_i64_pos (by omega : 0 < height)
      rw [if_neg (by omega), if_neg hzero, push_data_short hlength (by omega), encode_height_large (by omega)]

theorem encode_height_encodes {height : Int} (hlow : 0 ≤ height) :
    ∃ opcode data, Encodes opcode data (encode_height height) := by
  by_cases hlarge : 16 < height
  · obtain ⟨-, hlength⟩ := length_encode_i64_pos (by omega : 0 < height)
    rw [encode_height_large hlarge]
    exact ⟨_, _, .direct (by omega)⟩
  · unfold encode_height
    by_cases hzero : height = 0
    · rw [if_pos hzero]
      exact ⟨_, [], .direct (Nat.zero_le 75)⟩
    · rw [if_neg hzero, if_pos (by omega)]
      refine ⟨_, [], .code ?_⟩
      rw [UInt8.lt_iff_toNat_lt, UInt8.toNat_add, UInt8.toNat_ofNat_of_lt' (by omega : height.toNat < 256)]
      have hconst : OP_PUSHDATA4.toNat = 78 ∧ (0x50 : UInt8).toNat = 80 := ⟨rfl, rfl⟩
      omega

def decode_height : List UInt8 → Nat
  | [] => 0
  | [opcode] => if opcode = 0x00 then 0 else opcode.toNat - 0x50
  | _ :: data => littleEndian.ofBytes data

theorem decode_encode_height {height : Int} (hlow : 0 ≤ height) (hfit : height < 2 ^ 31) :
    (decode_height (encode_height height) : Int) = height := by
  by_cases hlarge : 16 < height
  · obtain ⟨hlength, -⟩ := length_encode_i64_pos (by omega : 0 < height)
    have hvalue := ofBytes_encode_i64 (by omega : 0 < height) (by omega)
    rw [encode_height_large hlarge]
    cases hdata : ScriptNum.encode_i64 height with
    | nil => rw [hdata] at hlength; cases hlength
    | cons first rest =>
      rw [hdata] at hvalue
      rw [decode_height, hvalue]
      · omega
      · exact nofun
  · obtain ⟨n, rfl⟩ := Int.eq_ofNat_of_zero_le hlow
    have hle : n ≤ 16 := by omega
    interval_cases n <;> rfl

/-- The first input of a coinbase has the script, and a block with it is accepted at a height
    at which coinbases have to start with the height. -/
def PassesHeightCheck (script_sig : Script) (height : Int) : Prop :=
  ∃ (env : Env) (block : Block) (coinbase : Transaction) (rest : List Transaction) (input : TxIn) (inputs : List TxIn)
    (prev_median_time : Int) (params : ConsensusParams),
    block.vtx = coinbase :: rest ∧ coinbase.vin = input :: inputs ∧ input.script_sig = script_sig ∧
      params.bip34_height ≤ height ∧ params.bip34_height ≠ -1 ∧
      contextual_check_block env block (height - 1) prev_median_time params = .ok ()

theorem PassesHeightCheck.starts_with {script_sig : Script} {height : Int} (hpasses : PassesHeightCheck script_sig height) :
    encode_height height <+: script_sig.data := by
  obtain ⟨env, block, coinbase, rest, input, inputs, prev_median_time, params, hblock, hcoinbase, rfl, hactive, hset,
    hcheck⟩ := hpasses
  unfold contextual_check_block at hcheck
  obtain ⟨found, hfound, hcheck⟩ := bind_eq_ok_iff.mp hcheck
  obtain ⟨rfl, -⟩ := checked_eq_ok.mp hfound
  obtain ⟨_, -, hcheck⟩ := bind_eq_ok_iff.mp hcheck
  have hchecked : params.bip34_height ≤ height ∧ params.bip34_height ≠ -1 := ⟨hactive, hset⟩
  rw [Int.sub_add_cancel, if_pos hchecked] at hcheck
  have hcheck : check_coinbase_height block height = .ok () := by
    dsimp only at hcheck
    split at hcheck <;>
    · obtain ⟨_, -, hcheck⟩ := bind_eq_ok_iff.mp hcheck
      obtain ⟨_, -, hcheck⟩ := bind_eq_ok_iff.mp hcheck
      exact hcheck
  unfold check_coinbase_height at hcheck
  rw [hblock] at hcheck
  dsimp only at hcheck
  rw [hcoinbase] at hcheck
  have hstart := require_eq_ok.mp hcheck
  rw [← eq_of_beq hstart]
  exact List.take_prefix _ _

/-- The encoding of a height is what `push_int` appends, no encoding is the start of another one,
    and no script of a coinbase passes the height check at two heights. -/
theorem bip34_heights_distinct (h₁ h₂ : Int) (hlow₁ : 0 ≤ h₁) (hhigh₁ : h₁ < 2 ^ 31) (hlow₂ : 0 ≤ h₂) (hhigh₂ : h₂ < 2 ^ 31) :
    (h₁ ≠ h₂ → ¬ encode_height h₁ <+: encode_height h₂ ∧ ¬ encode_height h₂ <+: encode_height h₁) ∧
      (∀ script : Script, (script.push_int h₁).data = script.data ++ encode_height h₁) ∧
      ∀ script_sig, PassesHeightCheck script_sig h₁ → PassesHeightCheck script_sig h₂ → h₁ = h₂ := by
  obtain ⟨opcode₁, data₁, hencodes₁⟩ := encode_height_encodes hlow₁
  obtain ⟨opcode₂, data₂, hencodes₂⟩ := encode_height_encodes hlow₂
  -- Two encodings at the start of the same bytes are one encoding.
  have hsame : ∀ bytes, encode_height h₁ <+: bytes → encode_height h₂ <+: bytes → h₁ = h₂ := by
    intro bytes hprefix₁ hprefix₂
    have heq := hencodes₁.prefix_free hencodes₂ hprefix₁ hprefix₂
    rw [← decode_encode_height hlow₁ hhigh₁, heq, decode_encode_height hlow₂ hhigh₂]
  refine ⟨fun hne => ⟨fun hprefix => hne ?_, fun hprefix => hne ?_⟩, push_int_encode_height hlow₁, ?_⟩
  · exact hsame _ hprefix (List.prefix_refl _)
  · exact hsame _ (List.prefix_refl _) hprefix
  · exact fun script_sig hpasses₁ hpasses₂ => hsame _ hpasses₁.starts_with hpasses₂.starts_with

/-- The heights around the last opcode of a small number. -/
theorem bip34_heights_distinct_sixteen :
    ¬ encode_height 16 <+: encode_height 17 ∧ (Script.new.push_int 16).data = [0x60] := by
  have hdistinct := bip34_heights_distinct 16 17 (by decide) (by decide) (by decide) (by decide)
  exact ⟨(hdistinct.1 (by decide)).1, hdistinct.2.1 .new⟩

end qubitcoin.validation
