import Mathlib.Tactic

/-! Bech32 and bech32m strings with a witness program. -/

namespace bech32

/-- The number with the given digits, the most significant one first. -/
def number (base : Nat) (digits : List Nat) : Nat := digits.foldl (fun n digit => n * base + digit) 0

theorem number_concat (base : Nat) (digits : List Nat) (digit : Nat) :
    number base (digits ++ [digit]) = number base digits * base + digit := by
  rw [number, List.foldl_append]
  rfl

theorem number_lt {base : Nat} {digits : List Nat} (hdigits : ∀ digit ∈ digits, digit < base) :
    number base digits < base ^ digits.length := by
  induction digits using List.reverseRecOn with
  | nil => exact Nat.one_pos
  | append_singleton digits digit ih =>
    have hrest := ih fun other hmem => hdigits other (List.mem_append_left _ hmem)
    have hdigit := hdigits digit (List.mem_append_right _ List.mem_cons_self)
    rw [number_concat, List.length_append, List.length_singleton, Nat.pow_succ]
    calc number base digits * base + digit
      _ < number base digits * base + base := Nat.add_lt_add_left hdigit _
      _ = (number base digits + 1) * base := (Nat.succ_mul ..).symm
      _ ≤ base ^ digits.length * base := Nat.mul_le_mul_right base hrest

/-- Digits of one length are determined by their number. -/
theorem number_injective {base : Nat} {left right : List Nat} (hleft : ∀ digit ∈ left, digit < base)
    (hright : ∀ digit ∈ right, digit < base) (hlength : left.length = right.length)
    (hnumber : number base left = number base right) : left = right := by
  induction left using List.reverseRecOn generalizing right with
  | nil => exact (List.length_eq_zero_iff.mp hlength.symm).symm
  | append_singleton left digit ih =>
    obtain rfl | ⟨right, last, rfl⟩ := List.eq_nil_or_concat right
    · simp at hlength
    rw [List.concat_eq_append] at hlength hnumber hright ⊢
    have hdigit := hleft digit (List.mem_append_right _ List.mem_cons_self)
    have hlast := hright last (List.mem_append_right _ List.mem_cons_self)
    rw [number_concat, number_concat] at hnumber
    have hmod := congrArg (· % base) hnumber
    have hdiv := congrArg (· / base) hnumber
    simp only [Nat.mul_add_mod_self_right, Nat.mod_eq_of_lt hdigit, Nat.mod_eq_of_lt hlast] at hmod
    subst hmod
    have hbase : 0 < base := Nat.lt_of_le_of_lt (Nat.zero_le _) hdigit
    simp only [Nat.mul_comm _ base, Nat.mul_add_div hbase, Nat.div_eq_of_lt hdigit, Nat.add_zero] at hdiv
    have hrest := ih (fun other hmem => hleft other (List.mem_append_left _ hmem))
      (fun other hmem => hright other (List.mem_append_left _ hmem)) (by simpa using hlength) hdiv
    rw [hrest]

/-- The bytes of a number at a width, the most significant one first. -/
def bytes : Nat → Nat → List UInt8
  | 0, _ => []
  | width + 1, n => bytes width (n / 256) ++ [UInt8.ofNat n]

theorem length_bytes (width n : Nat) : (bytes width n).length = width := by
  induction width generalizing n with
  | zero => rfl
  | succ width ih => rw [bytes, List.length_append, ih, List.length_singleton]

theorem number_bytes {width n : Nat} (hfits : n < 256 ^ width) : number 256 ((bytes width n).map UInt8.toNat) = n := by
  induction width generalizing n with
  | zero =>
    rw [Nat.pow_zero] at hfits
    exact (Nat.lt_one_iff.mp hfits).symm
  | succ width ih =>
    have hrest : n / 256 < 256 ^ width := by
      rw [Nat.pow_succ] at hfits
      omega
    have hlast : (UInt8.ofNat n).toNat = n % 256 := UInt8.toNat_ofNat'
    rw [bytes, List.map_append, List.map_cons, List.map_nil, number_concat, ih hrest, hlast]
    omega

theorem bytes_lt (program : List UInt8) : ∀ digit ∈ program.map UInt8.toNat, digit < 256 := by
  intro digit hmem
  obtain ⟨byte, _, rfl⟩ := List.mem_map.mp hmem
  exact byte.toNat_lt

theorem program_eq_of_number {left right : List UInt8} (hlength : left.length = right.length)
    (hnumber : number 256 (left.map UInt8.toNat) = number 256 (right.map UInt8.toNat)) : left = right := by
  have hdigits := number_injective (bytes_lt left) (bytes_lt right) (by simpa using hlength) hnumber
  exact List.map_injective_iff.mpr (fun _ _ => UInt8.toNat_inj.mp) hdigits

/-- The bits of the values, five for each, are those of the bytes and fewer than five zeros. -/
def Regroups (values : List Nat) (program : List UInt8) : Prop :=
  ∃ padding < 5, 5 * values.length = 8 * program.length + padding ∧
    number 32 values = number 256 (program.map UInt8.toNat) * 2 ^ padding

/-- The bytes of some values, if the bits that are left over are fewer than five zeros. -/
def regroup (values : List Nat) : Option (List UInt8) :=
  let padding := 5 * values.length % 8
  if padding < 5 ∧ number 32 values % 2 ^ padding = 0 then
    some (bytes (5 * values.length / 8) (number 32 values / 2 ^ padding))
  else none

theorem regroup_eq_some_iff {values : List Nat} (hvalues : ∀ value ∈ values, value < 32) {program : List UInt8} :
    regroup values = some program ↔ Regroups values program := by
  have hlt := number_lt hvalues
  unfold regroup
  dsimp only
  constructor
  · intro h
    obtain ⟨⟨hpadding, hzero⟩, hprogram⟩ := Option.ite_none_right_eq_some.mp h
    cases hprogram
    refine ⟨_, hpadding, ?_, ?_⟩
    · rw [length_bytes]
      omega
    · have hfits : number 32 values / 2 ^ (5 * values.length % 8) < 256 ^ (5 * values.length / 8) := by
        rw [Nat.div_lt_iff_lt_mul (Nat.two_pow_pos _)]
        calc number 32 values
          _ < 32 ^ values.length := hlt
          _ = 2 ^ (8 * (5 * values.length / 8) + 5 * values.length % 8) := by
            rw [Nat.div_add_mod, show (32 : Nat) = 2 ^ 5 from rfl, ← Nat.pow_mul]
          _ = 256 ^ (5 * values.length / 8) * 2 ^ (5 * values.length % 8) := by
            rw [Nat.pow_add, Nat.pow_mul]
      rw [number_bytes hfits, Nat.div_mul_cancel (Nat.dvd_of_mod_eq_zero hzero)]
  · rintro ⟨padding, hpadding, hlength, hnumber⟩
    have hmod : 5 * values.length % 8 = padding := by omega
    have hdiv : 5 * values.length / 8 = program.length := by omega
    rw [hmod, hdiv, hnumber, Nat.mul_mod_left, Nat.mul_div_cancel _ (Nat.two_pow_pos _), if_pos ⟨hpadding, rfl⟩]
    refine congrArg some (program_eq_of_number (length_bytes ..) ?_)
    refine number_bytes ?_
    have hfits := number_lt (bytes_lt program)
    rwa [List.length_map] at hfits

def splitLast {A : Type} [DecidableEq A] (a : A) : List A → Option (List A × List A)
  | [] => none
  | x :: xs =>
    match splitLast a xs with
    | some (front, back) => some (x :: front, back)
    | none => if x = a then some ([], xs) else none

theorem splitLast_eq_none {A : Type} [DecidableEq A] {a : A} {xs : List A} : splitLast a xs = none ↔ a ∉ xs := by
  induction xs with
  | nil => exact ⟨fun _ => List.not_mem_nil, fun _ => rfl⟩
  | cons x xs ih =>
    rw [splitLast, List.mem_cons, not_or, ← ih]
    cases splitLast a xs with
    | some parts => exact ⟨nofun, nofun⟩
    | none =>
      by_cases heq : x = a
      · exact ⟨fun h => absurd (if_pos heq ▸ h) nofun, fun h => absurd heq.symm h.1⟩
      · exact ⟨fun _ => ⟨fun h => heq h.symm, rfl⟩, fun _ => if_neg heq⟩

theorem splitLast_eq_some {A : Type} [DecidableEq A] {a : A} {xs front back : List A} :
    splitLast a xs = some (front, back) ↔ xs = front ++ a :: back ∧ a ∉ back := by
  induction xs generalizing front with
  | nil => exact ⟨nofun, fun h => absurd h.1 (by simp)⟩
  | cons x xs ih =>
    rw [splitLast]
    cases hsplit : splitLast a xs with
    | some parts =>
      obtain ⟨first, last⟩ := parts
      constructor
      · intro h
        cases h
        obtain ⟨hxs, hnot⟩ := ih.mp hsplit
        exact ⟨congrArg (x :: ·) hxs, hnot⟩
      · rintro ⟨hxs, hnot⟩
        cases front with
        | nil =>
          obtain ⟨_, rfl⟩ := List.cons.inj hxs
          rw [splitLast_eq_none.mpr hnot] at hsplit
          cases hsplit
        | cons y front =>
          obtain ⟨rfl, htail⟩ := List.cons.inj hxs
          have hparts := hsplit.symm.trans (ih.mpr ⟨htail, hnot⟩)
          cases hparts
          rfl
    | none =>
      have hnone := splitLast_eq_none.mp hsplit
      constructor
      · intro h
        obtain ⟨rfl, hparts⟩ := Option.ite_none_right_eq_some.mp h
        cases hparts
        exact ⟨rfl, hnone⟩
      · rintro ⟨hxs, _⟩
        cases front with
        | nil =>
          obtain ⟨rfl, rfl⟩ := List.cons.inj hxs
          exact if_pos rfl
        | cons y front =>
          obtain ⟨_, rfl⟩ := List.cons.inj hxs
          exact absurd (List.mem_append_right _ List.mem_cons_self) hnone

/-- The characters of the values from 0 to 31. -/
def charset : List Char :=
  ['q', 'p', 'z', 'r', 'y', '9', 'x', '8', 'g', 'f', '2', 't', 'v', 'd', 'w', '0', 's', '3', 'j', 'n', '5', '4', 'k',
    'h', 'c', 'e', '6', 'm', 'u', 'a', '7', 'l']

/-- The values of some characters. -/
def values : List Char → Option (List Nat)
  | [] => some []
  | c :: chars =>
    match charset.idxOf? c, values chars with
    | some value, some rest => some (value :: rest)
    | _, _ => none

theorem values_cons_eq_some {c : Char} {chars : List Char} {data : List Nat} :
    values (c :: chars) = some data ↔
      ∃ value rest, charset.idxOf? c = some value ∧ values chars = some rest ∧ data = value :: rest := by
  rw [values]
  cases charset.idxOf? c with
  | none => exact ⟨nofun, fun ⟨_, _, h, _⟩ => nomatch h⟩
  | some value =>
    cases values chars with
    | none => exact ⟨nofun, fun ⟨_, _, _, h, _⟩ => nomatch h⟩
    | some rest =>
      constructor
      · rintro ⟨⟩
        exact ⟨value, rest, rfl, rfl, rfl⟩
      · rintro ⟨_, _, ⟨⟩, ⟨⟩, rfl⟩
        rfl

theorem idxOf_lt {c : Char} {value : Nat} (h : charset.idxOf? c = some value) : value < 32 ∧ c ∈ charset := by
  obtain ⟨hlt, hget, _⟩ := List.idxOf?_eq_some_iff.mp h
  exact ⟨hlt, hget ▸ List.getElem_mem hlt⟩

theorem idxOf_eq {c : Char} {value : Nat} (h : charset.idxOf? c = some value) : charset.idxOf c = value := by
  obtain ⟨hlt, hget, _⟩ := List.idxOf?_eq_some_iff.mp h
  have hnodup : charset.Nodup := by decide
  rw [← hget]
  exact hnodup.idxOf_getElem value hlt

/-- There is one value below 32 for each character, and all are of the charset. -/
theorem values_spec {chars : List Char} {data : List Nat} (h : values chars = some data) :
    data.length = chars.length ∧ (∀ value ∈ data, value < 32) ∧ ∀ c ∈ chars, c ∈ charset := by
  induction chars generalizing data with
  | nil =>
    cases h
    exact ⟨rfl, nofun, nofun⟩
  | cons c chars ih =>
    obtain ⟨value, rest, hvalue, hrest, rfl⟩ := values_cons_eq_some.mp h
    obtain ⟨hlength, hlt, hmem⟩ := ih hrest
    obtain ⟨hvalue, hc⟩ := idxOf_lt hvalue
    refine ⟨congrArg (· + 1) hlength, ?_, ?_⟩
    · rintro other (_ | ⟨_, hother⟩)
      · exact hvalue
      · exact hlt other hother
    · rintro other (_ | ⟨_, hother⟩)
      · exact hc
      · exact hmem other hother

theorem values_of_charset {chars : List Char} (hchars : ∀ c ∈ chars, c ∈ charset) : ∃ data, values chars = some data := by
  induction chars with
  | nil => exact ⟨[], rfl⟩
  | cons c chars ih =>
    obtain ⟨rest, hrest⟩ := ih fun other hmem => hchars other (List.mem_cons_of_mem _ hmem)
    obtain ⟨value, hvalue⟩ := Option.isSome_iff_exists.mp
      (List.isSome_idxOf?.mpr (hchars c List.mem_cons_self))
    exact ⟨value :: rest, values_cons_eq_some.mpr ⟨value, rest, hvalue, hrest, rfl⟩⟩

def generator : List Nat := [0x3b6a57b2, 0x26508e6d, 0x1ea119fa, 0x3d4233dd, 0x2a1462b3]

/-- One more value of the polynomial. -/
def polymod_step (chk value : Nat) : Nat :=
  let top := chk / 2 ^ 25
  (generator.zipIdx.filter fun entry => top.testBit entry.2).foldl (fun chk entry => chk ^^^ entry.1)
    (chk % 2 ^ 25 * 32 ^^^ value)

def polymod (data : List Nat) : Nat := data.foldl polymod_step 1

/-- The values of a human-readable part, for the checksum. -/
def expand (hrp : List Char) : List Nat :=
  hrp.map (fun c => c.toNat / 32) ++ 0 :: hrp.map fun c => c.toNat % 32

/-- What the polynomial gives: bech32 for version zero, bech32m for the others. -/
def checksum_of (version : Nat) : Nat := if version = 0 then 1 else 0x2bc830a3

/-- The version and the program of a witness, in their bounds. -/
structure WitnessProgram where
  version : Nat
  program : List UInt8
  version_le : version ≤ 16
  length_mem : 2 ≤ program.length ∧ program.length ≤ 40
  length_zero : version = 0 → program.length = 20 ∨ program.length = 32
  deriving DecidableEq

/-- A valid address: in one case, of a bounded length, with a human-readable part of printable
    characters, a checksum of the kind that the version requires and zeros for padding. -/
structure SegwitAddress (s hrp : List Char) (witness : WitnessProgram) : Prop where
  one_case : s = s.map Char.toLower ∨ s = s.map Char.toUpper
  length : s.length ≤ 90
  printable : hrp ≠ [] ∧ ∀ c ∈ hrp, 33 ≤ c.toNat ∧ c.toNat ≤ 126
  data : ∃ chars groups checksum, s.map Char.toLower = hrp ++ '1' :: chars ∧
    values chars = some (witness.version :: groups ++ checksum) ∧ checksum.length = 6 ∧
    polymod (expand hrp ++ (witness.version :: groups ++ checksum)) = checksum_of witness.version ∧
    Regroups groups witness.program

/-- A character that a human-readable part may have. -/
def Printable (c : Char) : Bool := decide (33 ≤ c.toNat ∧ c.toNat ≤ 126)

theorem all_printable {hrp : List Char} :
    hrp.all Printable = true ↔ ∀ c ∈ hrp, 33 ≤ c.toNat ∧ c.toNat ≤ 126 := by
  rw [List.all_eq_true]
  exact forall_congr' fun _ => imp_congr_right fun _ => decide_eq_true_iff

/-- The parts of a valid address. -/
def decode (s : List Char) : Option (List Char × WitnessProgram) :=
  if (s ≠ s.map Char.toLower ∧ s ≠ s.map Char.toUpper) ∨ 90 < s.length then none
  else
    match splitLast '1' (s.map Char.toLower) with
    | none => none
    | some (hrp, chars) =>
      if hrp = [] ∨ hrp.all Printable = false then none
      else
        match values chars with
        | none | some [] => none
        | some (version :: rest) =>
          if rest.length < 6 ∨ polymod (expand hrp ++ version :: rest) ≠ checksum_of version then none
          else
            match regroup (rest.take (rest.length - 6)) with
            | none => none
            | some program =>
              if h : version ≤ 16 ∧ (2 ≤ program.length ∧ program.length ≤ 40) ∧
                  (version = 0 → program.length = 20 ∨ program.length = 32) then
                some (hrp, ⟨version, program, h.1, h.2.1, h.2.2⟩)
              else none

theorem decode_eq_some_iff {s hrp : List Char} {witness : WitnessProgram} :
    decode s = some (hrp, witness) ↔ SegwitAddress s hrp witness := by
  unfold decode
  constructor
  · intro h
    split at h
    · cases h
    next hform =>
    split at h
    · cases h
    next hrp' chars hsplit =>
    split at h
    · cases h
    next hhrp =>
    split at h
    · cases h
    · cases h
    next version rest hvalues =>
    split at h
    · cases h
    next hchecksum =>
    split at h
    · cases h
    next program hprogram =>
    split at h
    · next hbounds =>
      cases h
      obtain ⟨hparts, _⟩ := splitLast_eq_some.mp hsplit
      have hlt := (values_spec hvalues).2.1
      have hgroups : ∀ value ∈ rest.take (rest.length - 6), value < 32 :=
        fun value hmem => hlt value (List.mem_cons_of_mem _ (List.mem_of_mem_take hmem))
      rw [not_or, not_and_or, not_not, not_not, Nat.not_lt] at hform
      rw [not_or, Bool.not_eq_false, all_printable] at hhrp
      rw [not_or, not_not, Nat.not_lt] at hchecksum
      refine ⟨hform.1, hform.2, hhrp, chars, rest.take (rest.length - 6), rest.drop (rest.length - 6), hparts, ?_, ?_, ?_,
        (regroup_eq_some_iff hgroups).mp hprogram⟩
      · rw [List.cons_append, List.take_append_drop]
        exact hvalues
      · rw [List.length_drop]
        omega
      · rw [List.cons_append, List.take_append_drop]
        exact hchecksum.2
    · cases h
  · rintro ⟨hcase, hlength, ⟨hhrp, hprintable⟩, chars, groups, checksum, hparts, hvalues, hsix, hchecksum, hregroups⟩
    obtain ⟨_, hlt, hchars⟩ := values_spec hvalues
    have hnot : '1' ∉ chars := fun hmem => absurd (hchars '1' hmem) (by decide)
    have hgroups : ∀ value ∈ groups, value < 32 := fun value hmem =>
      hlt value (List.mem_append_left _ (List.mem_cons_of_mem _ hmem))
    have hregroup := (regroup_eq_some_iff hgroups).mpr hregroups
    have htake : (groups ++ checksum).take ((groups ++ checksum).length - 6) = groups := by
      rw [List.length_append, hsix, Nat.add_sub_cancel, List.take_left]
    have hform : ¬ ((s ≠ s.map Char.toLower ∧ s ≠ s.map Char.toUpper) ∨ 90 < s.length) := by
      rintro (⟨hlower, hupper⟩ | hlong)
      · exact hcase.elim hlower hupper
      · omega
    have hread : ¬ (hrp = [] ∨ hrp.all Printable = false) := by
      rw [not_or, Bool.not_eq_false, all_printable]
      exact ⟨hhrp, hprintable⟩
    rw [List.cons_append] at hvalues hchecksum
    rw [if_neg hform, splitLast_eq_some.mpr ⟨hparts, hnot⟩]
    dsimp only
    rw [if_neg hread, hvalues]
    dsimp only
    rw [if_neg (by rw [List.length_append, hsix]; rintro (h | h); exacts [by omega, h hchecksum]), htake, hregroup]
    dsimp only
    rw [dif_pos ⟨witness.version_le, witness.length_mem, witness.length_zero⟩]

end bech32
