import Qubitcoin.Lib.Bech32
import Qubitcoin.Script

/-! `qubitcoind/main.rs`: the scripts that addresses stand for, and on which strings the decoder
    of `scantxoutset` agrees with the one of `generatetoaddress`. -/

open qubitcoin.script

namespace qubitcoin.qubitcoind

open bech32

/-- The `bech32` charset. -/
def CHARSET : List Char :=
  ['q', 'p', 'z', 'r', 'y', '9', 'x', '8', 'g', 'f', '2', 't', 'v', 'd', 'w', '0', 's', '3', 'j', 'n', '5', '4', 'k',
    'h', 'c', 'e', '6', 'm', 'u', 'a', '7', 'l']

def push_bytes (acc : UInt32) (witness_program : List UInt8) : Nat → List UInt8 × Nat
  | bits + 8 => push_bytes acc (witness_program ++ [(acc >>> UInt32.ofNat bits).toUInt8]) bits
  | bits => (witness_program, bits)

/-- The accumulator of the conversion from 5-bit groups to bytes. -/
structure Groups where
  witness_program : List UInt8
  acc : UInt32
  bits : Nat

def Groups.push (self : Groups) (val : UInt8) : Groups :=
  let acc := self.acc <<< 5 ||| val.toUInt32
  let (witness_program, bits) := push_bytes acc self.witness_program (self.bits + 5)
  ⟨witness_program, acc, bits⟩

def convert (data5 : List UInt8) : Groups := data5.foldl Groups.push ⟨[], 0, 0⟩

/-- `to_lowercase` of a string, which maps more characters than those of ASCII, is a parameter. -/
def decode_address_to_script (to_lowercase : List Char → List Char) (address : List Char) : Option Script :=
  match splitLast '1' (to_lowercase address) with
  | none => none
  | some (_, data_part) =>
    if (data_part.map Char.utf8Size).sum < 7 then none
    else
      match data_part.mapM fun c => (CHARSET.idxOf? c).map UInt8.ofNat with
      | none => none
      | some data5 =>
        if data5.length < 7 then none
        else
          match data5.take (data5.length - 6) with
          | [] => none
          | witness_version :: rest =>
            if 16 < witness_version then none
            else
              let witness_program := (convert rest).witness_program
              let op_n := if witness_version = 0 then 0x00 else 0x50 + witness_version
              some ⟨op_n :: UInt8.ofNat witness_program.length :: witness_program⟩

/-- The script of the coinbase of `generatetoaddress`. The decoder of the `bech32` crate gives a
    version and a program. -/
def coinbase_script (segwit_decode : List Char → Option (UInt8 × List UInt8)) (address : List Char) : Script :=
  match segwit_decode address with
  | some (version, program) =>
    let ver_op := if version = 0 then 0x00 else 0x50 + version
    ⟨ver_op :: UInt8.ofNat program.length :: program⟩
  | none => ⟨[0x51]⟩

theorem acc_push {acc : UInt32} {val : UInt8} (hval : val.toNat < 32) {bits : Nat} (hbits : bits < 8) :
    (acc <<< 5 ||| val.toUInt32).toNat % 2 ^ (bits + 5) = acc.toNat % 2 ^ bits * 32 + val.toNat := by
  have hshift : (acc <<< 5).toNat = 2 ^ 5 * (acc.toNat % 2 ^ 27) := by
    rw [UInt32.toNat_shiftLeft]
    change acc.toNat <<< 5 % 2 ^ 32 = _
    rw [Nat.shiftLeft_eq, Nat.mul_comm, show (2 : Nat) ^ 32 = 2 ^ 5 * 2 ^ 27 from rfl, Nat.mul_mod_mul_left]
  rw [UInt32.toNat_or, hshift, UInt8.toNat_toUInt32, ← Nat.two_pow_add_eq_or_of_lt hval, Nat.pow_add,
    Nat.mul_comm (2 ^ bits), Nat.mod_mul, Nat.mul_add_mod, Nat.mod_eq_of_lt (show val.toNat < 2 ^ 5 from hval),
    Nat.mul_add_div (by decide), Nat.div_eq_of_lt (show val.toNat < 2 ^ 5 from hval), Nat.add_zero,
    Nat.mod_mod_of_dvd _ (Nat.pow_dvd_pow 2 (by omega : bits ≤ 27))]
  omega

theorem push_bytes_few (acc : UInt32) (witness_program : List UInt8) {bits : Nat} (hbits : bits < 8) :
    push_bytes acc witness_program bits = (witness_program, bits) := by
  interval_cases bits <;> rfl

theorem convert_spec {data5 : List UInt8} (hdata : ∀ val ∈ data5, val.toNat < 32) :
    (convert data5).bits < 8 ∧
      5 * data5.length = 8 * (convert data5).witness_program.length + (convert data5).bits ∧
      number 32 (data5.map UInt8.toNat) =
        number 256 ((convert data5).witness_program.map UInt8.toNat) * 2 ^ (convert data5).bits +
          (convert data5).acc.toNat % 2 ^ (convert data5).bits := by
  induction data5 using List.reverseRecOn with
  | nil => exact ⟨by decide, rfl, rfl⟩
  | append_singleton data5 val ih =>
    obtain ⟨hbits, hlength, hnumber⟩ := ih fun other hmem => hdata other (List.mem_append_left _ hmem)
    have hval := hdata val (List.mem_append_right _ List.mem_cons_self)
    have hacc := @acc_push (convert data5).acc val hval _ hbits
    have hconvert : convert (data5 ++ [val]) = (convert data5).push val := by
      rw [convert, List.foldl_append]
      rfl
    rw [hconvert, List.map_append, List.map_cons, List.map_nil, number_concat, List.length_append,
      List.length_singleton, hnumber]
    generalize convert data5 = groups at hbits hlength hacc ⊢
    obtain ⟨program, acc, bits⟩ := groups
    unfold Groups.push
    dsimp only at hbits hlength hacc ⊢
    generalize acc <<< 5 ||| val.toUInt32 = next at hacc ⊢
    by_cases hfew : bits + 5 < 8
    · rw [push_bytes_few next program hfew]
      refine ⟨hfew, by dsimp only; omega, ?_⟩
      dsimp only
      rw [hacc, Nat.pow_add]
      ring
    · obtain ⟨left, hleft⟩ : ∃ left, bits + 5 = left + 8 := ⟨bits + 5 - 8, by omega⟩
      have hpushed : push_bytes next program (bits + 5) =
          (program ++ [(next >>> UInt32.ofNat left).toUInt8], left) := by
        rw [hleft]
        change push_bytes next (program ++ [(next >>> UInt32.ofNat left).toUInt8]) left = _
        exact push_bytes_few next _ (by omega)
      have hshift : (UInt32.ofNat left).toNat % 32 = left := by
        rw [UInt32.toNat_ofNat_of_lt' (by change left < 2 ^ 32; omega), Nat.mod_eq_of_lt (by omega)]
      have hbyte : ((next >>> UInt32.ofNat left).toUInt8).toNat = next.toNat / 2 ^ left % 256 := by
        rw [UInt32.toNat_toUInt8, UInt32.toNat_shiftRight, hshift, Nat.shiftRight_eq_div_pow]
      have hsplit : next.toNat % 2 ^ (left + 8) = next.toNat % 2 ^ left + 2 ^ left * (next.toNat / 2 ^ left % 256) := by
        rw [Nat.pow_add, Nat.mod_mul]
      rw [hpushed]
      refine ⟨by dsimp only; omega, by dsimp only; rw [List.length_append, List.length_singleton]; omega, ?_⟩
      dsimp only
      rw [List.map_append, List.map_cons, List.map_nil, number_concat, hbyte]
      rw [hleft, hsplit] at hacc
      calc (number 256 (program.map UInt8.toNat) * 2 ^ bits + acc.toNat % 2 ^ bits) * 32 + val.toNat
        _ = number 256 (program.map UInt8.toNat) * (2 ^ bits * 2 ^ 5) + (acc.toNat % 2 ^ bits * 32 + val.toNat) := by
          ring
        _ = number 256 (program.map UInt8.toNat) * (2 ^ left * 2 ^ 8) +
            (next.toNat % 2 ^ left + 2 ^ left * (next.toNat / 2 ^ left % 256)) := by
          rw [← hacc, ← Nat.pow_add, ← Nat.pow_add, hleft]
        _ = (number 256 (program.map UInt8.toNat) * 256 + next.toNat / 2 ^ left % 256) * 2 ^ left +
            next.toNat % 2 ^ left := by
          ring

theorem convert_eq_of_regroups {data5 : List UInt8} (hdata : ∀ val ∈ data5, val.toNat < 32) {program : List UInt8}
    (hregroups : Regroups (data5.map UInt8.toNat) program) : (convert data5).witness_program = program := by
  obtain ⟨hbits, hlength, hnumber⟩ := convert_spec hdata
  obtain ⟨padding, hpadding, hsize, hvalue⟩ := hregroups
  rw [List.length_map] at hsize
  have hpad : (convert data5).bits = padding := by omega
  refine program_eq_of_number (by omega) ?_
  rw [hpad] at hnumber
  have hrest : (convert data5).acc.toNat % 2 ^ padding < 2 ^ padding := Nat.mod_lt _ (Nat.two_pow_pos _)
  have hdiv := congrArg (· / 2 ^ padding) (hnumber.symm.trans hvalue)
  simp only [Nat.mul_comm _ (2 ^ padding), Nat.mul_add_div (Nat.two_pow_pos padding), Nat.div_eq_of_lt hrest,
    Nat.add_zero, Nat.mul_div_cancel_left _ (Nat.two_pow_pos padding)] at hdiv
  exact hdiv

/-- After some '1' of a string, there are at least seven characters of the charset, and the
    first one stands for a version. -/
def Readable (addr : List Char) : Prop :=
  ∃ front version rest, addr = front ++ '1' :: version :: rest ∧ (∀ c ∈ version :: rest, c ∈ CHARSET) ∧
    6 ≤ rest.length ∧ CHARSET.idxOf version ≤ 16

/-- The script of a version and a program. -/
def witness_script (version : UInt8) (program : List UInt8) : Script :=
  ⟨(if version = 0 then 0x00 else 0x50 + version) :: UInt8.ofNat program.length :: program⟩

theorem mapM_charset (chars : List Char) : (chars.mapM fun c => (CHARSET.idxOf? c).map UInt8.ofNat) =
    (values chars).map (List.map UInt8.ofNat) := by
  induction chars with
  | nil => rfl
  | cons c chars ih =>
    rw [List.mapM_cons, ih, values]
    change ((charset.idxOf? c).map UInt8.ofNat).bind _ = _
    cases charset.idxOf? c with
    | none => rfl
    | some value => cases values chars <;> rfl

theorem length_le_utf8 (chars : List Char) : chars.length ≤ (chars.map Char.utf8Size).sum := by
  induction chars with
  | nil => exact Nat.le_refl _
  | cons c chars ih =>
    have hsize := c.utf8Size_pos
    rw [List.map_cons, List.sum_cons, List.length_cons]
    omega

theorem take_groups {version : Nat} {data : List Nat} (hlength : 6 ≤ data.length) :
    ((version :: data).map UInt8.ofNat).take (((version :: data).map UInt8.ofNat).length - 6) =
      UInt8.ofNat version :: (data.take (data.length - 6)).map UInt8.ofNat := by
  have hcount : (data.map UInt8.ofNat).length + 1 - 6 = data.length - 6 + 1 := by
    rw [List.length_map]
    omega
  rw [List.map_cons, List.length_cons, hcount, List.take_succ_cons, List.map_take]

variable {to_lowercase : List Char → List Char} {address : List Char}

theorem decode_address_of_values {front chars : List Char} (hparts : to_lowercase address = front ++ '1' :: chars)
    {version : Nat} {data : List Nat} (hvalues : values chars = some (version :: data)) (hlength : 6 ≤ data.length)
    (hversion : version ≤ 16) :
    decode_address_to_script to_lowercase address = some (witness_script (UInt8.ofNat version)
      (convert ((data.take (data.length - 6)).map UInt8.ofNat)).witness_program) := by
  obtain ⟨hsize, _, hchars⟩ := values_spec hvalues
  have hnot : '1' ∉ chars := fun hmem => absurd (hchars '1' hmem) (by decide)
  have hutf8 := length_le_utf8 chars
  rw [List.length_cons] at hsize
  have hle : ¬ 16 < UInt8.ofNat version := by
    rw [UInt8.lt_iff_toNat_lt, UInt8.toNat_ofNat_of_lt' (by change version < 256; omega)]
    exact Nat.not_lt.mpr hversion
  unfold decode_address_to_script
  rw [splitLast_eq_some.mpr ⟨hparts, hnot⟩]
  dsimp only
  rw [if_neg (by omega), mapM_charset, hvalues]
  dsimp only [Option.map_some]
  rw [if_neg (by rw [List.length_map, List.length_cons]; omega), take_groups hlength]
  dsimp only
  rw [if_neg hle]
  rfl

theorem decode_address_isSome : (decode_address_to_script to_lowercase address).isSome ↔ Readable (to_lowercase address) := by
  constructor
  · intro hsome
    unfold decode_address_to_script at hsome
    split at hsome
    · cases hsome
    next front data_part hsplit =>
    split at hsome
    · cases hsome
    rw [mapM_charset] at hsome
    cases hvalues : values data_part with
    | none =>
      rw [hvalues] at hsome
      cases hsome
    | some data =>
      rw [hvalues] at hsome
      dsimp only [Option.map_some] at hsome
      split at hsome
      · cases hsome
      next hlong =>
      rw [List.length_map] at hlong
      obtain ⟨hsize, _, hchars⟩ := values_spec hvalues
      cases data_part with
      | nil =>
        rw [List.length_nil] at hsize
        omega
      | cons version rest =>
        obtain ⟨value, values, hvalue, hrest, rfl⟩ := values_cons_eq_some.mp hvalues
        rw [List.length_cons, List.length_cons] at hsize
        rw [List.length_cons] at hlong
        rw [take_groups (by omega)] at hsome
        dsimp only at hsome
        split at hsome
        · cases hsome
        next hle =>
        refine ⟨front, version, rest, (splitLast_eq_some.mp hsplit).1, hchars, by omega, ?_⟩
        have hlt := (idxOf_lt hvalue).1
        rw [UInt8.lt_iff_toNat_lt, UInt8.toNat_ofNat_of_lt' (by change value < 256; omega)] at hle
        change charset.idxOf version ≤ 16
        rw [idxOf_eq hvalue]
        exact Nat.not_lt.mp hle
  · rintro ⟨front, version, rest, hparts, hchars, hlength, hversion⟩
    obtain ⟨data, hvalues⟩ := values_of_charset hchars
    obtain ⟨value, data, hvalue, hrest, rfl⟩ := values_cons_eq_some.mp hvalues
    have hsize := (values_spec hrest).1
    have hle : value ≤ 16 := (idxOf_eq hvalue).symm.trans_le hversion
    rw [decode_address_of_values hparts hvalues (by omega) hle]
    rfl

theorem toNat_lt_of_toLower {c : Char} (h : c.toLower.toNat < 128) : c.toNat < 128 := by
  unfold Char.toLower at h
  split at h
  · next hupper =>
    have hle : c.val.toNat ≤ 90 := UInt32.le_iff_toNat_le.mp hupper.2
    change c.val.toNat < 128
    omega
  · exact h

theorem ascii_of_address {hrp : List Char} {witness : WitnessProgram} (haddress : SegwitAddress address hrp witness) :
    ∀ c ∈ address, c.toNat < 128 := by
  obtain ⟨_, _, ⟨_, hprintable⟩, chars, groups, checksum, hparts, hvalues, _⟩ := haddress
  have hchars := (values_spec hvalues).2.2
  have hcharset : charset.all (fun c => decide (c.toNat < 128)) = true := by decide
  intro c hmem
  refine toNat_lt_of_toLower ?_
  have hlowered : c.toLower ∈ hrp ++ '1' :: chars := hparts ▸ List.mem_map_of_mem hmem
  obtain hfront | hlowered := List.mem_append.mp hlowered
  · exact Nat.lt_of_le_of_lt (hprintable _ hfront).2 (by decide)
  · obtain hone | hback := List.mem_cons.mp hlowered
    · rw [hone]
      decide
    · exact of_decide_eq_true (List.all_eq_true.mp hcharset _ (hchars _ hback))

theorem decode_address_of_address (hlower : ∀ s, (∀ c ∈ s, c.toNat < 128) → to_lowercase s = s.map Char.toLower)
    {hrp : List Char} {witness : WitnessProgram} (haddress : SegwitAddress address hrp witness) :
    decode_address_to_script to_lowercase address =
      some (witness_script (UInt8.ofNat witness.version) witness.program) := by
  have hlowered := hlower address (ascii_of_address haddress)
  obtain ⟨_, _, _, chars, groups, checksum, hparts, hvalues, hsix, _, hregroups⟩ := haddress
  rw [List.cons_append] at hvalues
  have hlt := (values_spec hvalues).2.1
  have htake : (groups ++ checksum).take ((groups ++ checksum).length - 6) = groups := by
    rw [List.length_append, hsix, Nat.add_sub_cancel, List.take_left]
  have hgroups : (groups.map UInt8.ofNat).map UInt8.toNat = groups := by
    rw [List.map_map]
    refine (List.map_congr_left fun value hmem => ?_).trans groups.map_id
    have hvalue := hlt value (List.mem_cons_of_mem _ (List.mem_append_left _ hmem))
    exact UInt8.toNat_ofNat_of_lt' (by change value < 256; omega)
  have hdata : ∀ val ∈ groups.map UInt8.ofNat, val.toNat < 32 := by
    intro val hmem
    have hval : val.toNat ∈ groups := hgroups ▸ List.mem_map_of_mem hmem
    exact hlt _ (List.mem_cons_of_mem _ (List.mem_append_left _ hval))
  rw [decode_address_of_values (hlowered.trans hparts) hvalues (by rw [List.length_append]; omega)
    witness.version_le, htake, convert_eq_of_regroups hdata (hgroups.symm ▸ hregroups)]

/-- The decoder returns the script of a valid address and nothing for other strings exactly if
    the string is a valid address or cannot be read. On a valid address it agrees with the
    coinbase of `generatetoaddress`. -/
theorem decode_address_iff (to_lowercase : List Char → List Char)
    (hlower : ∀ s, (∀ c ∈ s, c.toNat < 128) → to_lowercase s = s.map Char.toLower)
    (segwit_decode : List Char → Option (UInt8 × List UInt8))
    (hdecode : ∀ s version program, segwit_decode s = some (version, program) ↔ ∃ hrp witness,
      SegwitAddress s hrp witness ∧ version = UInt8.ofNat witness.version ∧ program = witness.program)
    (address : List Char) :
    ((∀ script, decode_address_to_script to_lowercase address = some script ↔ ∃ hrp witness,
        SegwitAddress address hrp witness ∧ script = witness_script (UInt8.ofNat witness.version) witness.program) ↔
      (∃ hrp witness, SegwitAddress address hrp witness) ∨ ¬Readable (to_lowercase address)) ∧
    ∀ hrp witness, SegwitAddress address hrp witness →
      coinbase_script segwit_decode address = witness_script (UInt8.ofNat witness.version) witness.program := by
  refine ⟨⟨fun hexact => ?_, ?_⟩, fun hrp witness haddress => ?_⟩
  · by_cases hread : Readable (to_lowercase address)
    · obtain ⟨script, hscript⟩ := Option.isSome_iff_exists.mp (decode_address_isSome.mpr hread)
      obtain ⟨hrp, witness, haddress, _⟩ := (hexact script).mp hscript
      exact .inl ⟨hrp, witness, haddress⟩
    · exact .inr hread
  · rintro (⟨hrp, witness, haddress⟩ | hread) script
    · rw [decode_address_of_address hlower haddress]
      constructor
      · rintro ⟨⟩
        exact ⟨hrp, witness, haddress, rfl⟩
      · rintro ⟨hrp', witness', haddress', rfl⟩
        rw [← decode_address_of_address hlower haddress, decode_address_of_address hlower haddress']
    · constructor
      · intro hscript
        exact absurd (decode_address_isSome.mp (Option.isSome_of_eq_some hscript)) hread
      · rintro ⟨hrp, witness, haddress, rfl⟩
        exact absurd (decode_address_isSome.mp (Option.isSome_of_eq_some (decode_address_of_address hlower haddress)))
          hread
  · rw [coinbase_script, (hdecode ..).mpr ⟨hrp, witness, haddress, rfl, rfl⟩]
    rfl

/-- The decoder of the `bech32` crate: version and program of a valid address. -/
def segwit_decode (address : List Char) : Option (UInt8 × List UInt8) :=
  (decode address).map fun parts => (UInt8.ofNat parts.2.version, parts.2.program)

theorem segwit_decode_eq_some_iff (address : List Char) (version : UInt8) (program : List UInt8) :
    segwit_decode address = some (version, program) ↔ ∃ hrp witness, SegwitAddress address hrp witness ∧
      version = UInt8.ofNat witness.version ∧ program = witness.program := by
  rw [segwit_decode, Option.map_eq_some_iff]
  constructor
  · rintro ⟨⟨hrp, witness⟩, hdecode, heq⟩
    cases heq
    exact ⟨hrp, witness, decode_eq_some_iff.mp hdecode, rfl, rfl⟩
  · rintro ⟨hrp, witness, haddress, rfl, rfl⟩
    exact ⟨(hrp, witness), decode_eq_some_iff.mpr haddress, rfl⟩

def upper_address : List Char :=
  ['B', 'C', '1', 'Q', 'W', '5', '0', '8', 'D', '6', 'Q', 'E', 'J', 'X', 'T', 'D', 'G', '4', 'Y', '5', 'R',
    '3', 'Z', 'A', 'R', 'V', 'A', 'R', 'Y', '0', 'C', '5', 'X', 'W', '7', 'K', 'V', '8', 'F', '3', 'T', '4']

theorem decode_address_upper_address :
    ∃ program, decode_address_to_script (List.map Char.toLower) upper_address = some ⟨0x00 :: 0x14 :: program⟩ ∧
      coinbase_script segwit_decode upper_address = ⟨0x00 :: 0x14 :: program⟩ := by
  obtain ⟨hiff, hcoinbase⟩ := decode_address_iff (List.map Char.toLower) (fun _ _ => rfl) segwit_decode
    segwit_decode_eq_some_iff upper_address
  obtain ⟨⟨hrp, witness⟩, hdecode⟩ : ∃ parts, decode upper_address = some parts :=
    Option.isSome_iff_exists.mp (by decide +kernel)
  have hscript : (decode upper_address).map (fun parts => (parts.2.version, parts.2.program.length)) = some (0, 20) := by
    decide +kernel
  have haddress := decode_eq_some_iff.mp hdecode
  rw [hdecode] at hscript
  obtain ⟨hversion, hlength⟩ := Prod.mk.inj (Option.some.inj hscript)
  have heq : witness_script (UInt8.ofNat witness.version) witness.program = ⟨0x00 :: 0x14 :: witness.program⟩ := by
    rw [hversion, witness_script, hlength]
    rfl
  refine ⟨witness.program, ?_, (hcoinbase hrp witness haddress).trans heq⟩
  exact heq ▸ (hiff.mpr (.inl ⟨hrp, witness, haddress⟩) _).mpr ⟨hrp, witness, haddress, rfl⟩

def mistyped_address : List Char :=
  ['b', 'c', '1', 'q', 'x', '5', '0', '8', 'd', '6', 'q', 'e', 'j', 'x', 't', 'd', 'g', '4', 'y', '5', 'r',
    '3', 'z', 'a', 'r', 'v', 'a', 'r', 'y', '0', 'c', '5', 'x', 'w', '7', 'k', 'v', '8', 'f', '3', 't', '4']

theorem decode_address_fails :
    ¬∀ address, (decode_address_to_script (List.map Char.toLower) address).isSome ↔
      ∃ hrp witness, SegwitAddress address hrp witness := by
  intro hexact
  obtain ⟨hrp, witness, haddress⟩ := (hexact mistyped_address).mp (by decide +kernel)
  have hnone : decode mistyped_address = none := by decide +kernel
  have hsome := decode_eq_some_iff.mpr haddress
  rw [hnone] at hsome
  cases hsome

end qubitcoin.qubitcoind
