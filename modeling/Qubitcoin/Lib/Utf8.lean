import Mathlib.Data.List.Basic
import Mathlib.Data.List.DropRight
import Mathlib.Data.List.Infix
import Mathlib.Algebra.Ring.Nat

/-! The bytes of a string, and the string of some bytes, with replacement characters where they
    are not well formed. -/

namespace utf8

/-- The UTF-8 form of a string. -/
def bytes (s : String) : List UInt8 := s.toUTF8.data.toList

/-- The string of which the bytes are the UTF-8 form. -/
def ofBytes? (bytes : List UInt8) : Option String := String.fromUTF8? ⟨bytes.toArray⟩

theorem ofBytes?_bytes (s : String) : ofBytes? (bytes s) = some s := by
  have hbytes : (⟨(bytes s).toArray⟩ : ByteArray) = s.toUTF8 := by
    unfold bytes
    rw [Array.toArray_toList]
  rw [ofBytes?, hbytes, String.fromUTF8?]
  exact dif_pos s.isValidUTF8

theorem bytes_of_ofBytes? {raw : List UInt8} {s : String} (hvalid : ofBytes? raw = some s) : bytes s = raw := by
  unfold ofBytes? String.fromUTF8? at hvalid
  split at hvalid
  · cases hvalid
    rfl
  · cases hvalid

theorem bytes_injective : Function.Injective bytes := by
  intro s t heq
  have hs := ofBytes?_bytes s
  rw [heq, ofBytes?_bytes] at hs
  exact (Option.some.inj hs).symm

theorem bytes_ofList (chars : List Char) : bytes (String.ofList chars) = chars.flatMap String.utf8EncodeChar :=
  List.toList_data_toByteArray

/-- Bytes below 128 are the form of as many characters. -/
theorem bytes_ascii {raw : List UInt8} (hascii : ∀ byte ∈ raw, byte.toNat < 128) :
    bytes (String.ofList (raw.map fun byte => Char.ofNat byte.toNat)) = raw := by
  have hall : ∀ n : Fin 128, String.utf8EncodeChar (Char.ofNat n.val) = [UInt8.ofNat n.val] := by decide +kernel
  rw [bytes_ofList, List.flatMap_map]
  induction raw with
  | nil => rfl
  | cons byte raw ih =>
    obtain ⟨hbyte, hraw⟩ := List.forall_mem_cons.mp hascii
    rw [List.flatMap_cons, hall ⟨byte.toNat, hbyte⟩, UInt8.ofNat_toNat, ih hraw]
    rfl

/-- U+FFFD. -/
def replacement : Char := Char.ofNat 0xfffd

/-- The number of bytes that follow a first byte; none where it cannot be one. -/
def following (first : UInt8) : Option Nat :=
  if first < 0x80 then some 0
  else if 0xc2 ≤ first ∧ first < 0xe0 then some 1
  else if 0xe0 ≤ first ∧ first < 0xf0 then some 2
  else if 0xf0 ≤ first ∧ first < 0xf5 then some 3
  else none

/-- The second byte of a sequence: overlong forms, surrogates and values beyond the last
    code point are excluded. -/
def second_fits (first second : UInt8) : Bool :=
  if first = 0xe0 then 0xa0 ≤ second ∧ second < 0xc0
  else if first = 0xed then 0x80 ≤ second ∧ second < 0xa0
  else if first = 0xf0 then 0x90 ≤ second ∧ second < 0xc0
  else if first = 0xf4 then 0x80 ≤ second ∧ second < 0x90
  else 0x80 ≤ second ∧ second < 0xc0

/-- The bytes after the first one that belong to its sequence. -/
def continuation (first : UInt8) (count : Nat) : List UInt8 → List UInt8
  | [] => []
  | second :: rest =>
    if count ≠ 0 ∧ second_fits first second then
      second :: (rest.take (count - 1)).takeWhile fun byte => 0x80 ≤ byte ∧ byte < 0xc0
    else []

def code_point (first : UInt8) (rest : List UInt8) : Char :=
  let mask := if rest.length = 0 then 0x80 else 2 ^ (6 - rest.length)
  Char.ofNat (rest.foldl (fun value byte => value * 64 + byte.toNat % 64) (first.toNat % mask))

/-- One character for each sequence; the part of a sequence that is cut off, or a byte that
    opens none, gives a replacement character. -/
def lossy_chars : Nat → List UInt8 → List Char
  | 0, _ => []
  | _, [] => []
  | fuel + 1, first :: rest =>
    match following first with
    | none => replacement :: lossy_chars fuel rest
    | some count =>
      let found := continuation first count rest
      (if found.length = count then code_point first found else replacement) ::
        lossy_chars fuel (rest.drop found.length)

/-- `String::from_utf8_lossy`. -/
def from_utf8_lossy (bytes : List UInt8) : String :=
  match ofBytes? bytes with
  | some s => s
  | none => String.ofList (lossy_chars bytes.length bytes)

theorem from_utf8_lossy_bytes (s : String) : from_utf8_lossy (bytes s) = s := by
  rw [from_utf8_lossy, ofBytes?_bytes]

/-- A sequence of three bytes after which the first two of another one are missing. -/
example : lossy_chars 6 [0xe2, 0x82, 0xac, 0xe2, 0x82, 0x41] = [Char.ofNat 0x20ac, replacement, 'A'] := by
  decide +kernel

end utf8

/-! Text as a list of characters that take one to four bytes each: lines, trimmed text, the text
    after some bytes, and lower case. -/

namespace text

/-- `char::is_ascii`. -/
def is_ascii (c : Char) : Bool := c.toNat < 128

/-- `char::is_whitespace`. -/
def is_whitespace (c : Char) : Bool :=
  let n := c.toNat
  (9 ≤ n && n ≤ 13) || n == 0x20 || n == 0x85 || n == 0xa0 || n == 0x1680 || (0x2000 ≤ n && n ≤ 0x200a) ||
    n == 0x2028 || n == 0x2029 || n == 0x202f || n == 0x205f || n == 0x3000

/-- `str::trim`. -/
def trim (s : List Char) : List Char := (s.dropWhile is_whitespace).rdropWhile is_whitespace

/-- The lines with their ends. -/
def split_inclusive : List Char → List (List Char)
  | [] => []
  | c :: rest =>
    if c = '\n' then [c] :: split_inclusive rest
    else
      match split_inclusive rest with
      | [] => [[c]]
      | line :: lines => (c :: line) :: lines

/-- A line without its end. A carriage return belongs to the end only before a line feed. -/
def strip_line_end (line : List Char) : List Char :=
  if ['\r', '\n'] <:+ line then line.dropLast.dropLast
  else if ['\n'] <:+ line then line.dropLast
  else line

/-- `str::lines`. -/
def lines (s : List Char) : List (List Char) := (split_inclusive s).map strip_line_end

/-- What is before and after the first separator. -/
def split_once (separator : List Char) : List Char → Option (List Char × List Char)
  | [] => none
  | c :: rest =>
    if separator <+: c :: rest then some ([], (c :: rest).drop separator.length)
    else (split_once separator rest).map fun (before, after) => (c :: before, after)

/-- `str::splitn`. -/
def splitn (separator : List Char) : Nat → List Char → List (List Char)
  | 0, _ => []
  | 1, s => [s]
  | n + 2, s =>
    match split_once separator s with
    | some (before, after) => before :: splitn separator (n + 1) after
    | none => [s]

/-- `&s[start..]`: none where `start` is past the end or within a character. -/
def slice_from : Nat → List Char → Option (List Char)
  | 0, s => some s
  | _ + 1, [] => none
  | start + 1, c :: s => if c.utf8Size ≤ start + 1 then slice_from (start + 1 - c.utf8Size) s else none

theorem utf8Size_eq_one {c : Char} (hascii : is_ascii c) : c.utf8Size = 1 := by
  have hlt : c.toNat < 128 := by simpa [is_ascii] using hascii
  exact Char.utf8Size_eq_one_iff.mpr (UInt32.le_iff_toNat_le.mpr (Nat.le_of_lt_succ hlt))

/-- Behind characters of one byte a slice begins where that many are dropped. -/
theorem slice_from_ascii {first : List Char} (hascii : ∀ c ∈ first, is_ascii c) (rest : List Char) :
    slice_from first.length (first ++ rest) = some rest := by
  induction first with
  | nil => simp [slice_from]
  | cons c first ih =>
    obtain ⟨hc, hfirst⟩ := List.forall_mem_cons.mp hascii
    rw [List.length_cons, List.cons_append, slice_from, utf8Size_eq_one hc, if_pos (by omega), Nat.add_sub_cancel]
    exact ih hfirst

/-- What the Unicode tables say of the characters that are not ASCII. Among the lower case forms
    only those of U+212A, `k`, and of U+0130, `i` with U+0307, start with an ASCII character. -/
structure CaseTable where
  lower : Char → List Char
  cased : Char → Bool
  case_ignorable : Char → Bool
  lower_starts : ∀ c, is_ascii c = false →
    ∃ first rest, lower c = first :: rest ∧ (is_ascii first → first = 'k' ∨ first = 'i' ∧ rest = [Char.ofNat 0x307])

namespace CaseTable

variable (table : CaseTable)

/-- The sigma, in its small form and in the one at the end of a word. -/
def capital_sigma : Char := Char.ofNat 0x3a3

def small_sigma : Char := Char.ofNat 0x3c3

def final_sigma : Char := Char.ofNat 0x3c2

def case_ignorable_then_cased (s : List Char) : Bool :=
  match s.dropWhile table.case_ignorable with
  | c :: _ => table.cased c
  | [] => false

/-- `before` is what is in front of the sigma, from its end. -/
def map_uppercase_sigma (before after : List Char) : Char :=
  if table.case_ignorable_then_cased before && !table.case_ignorable_then_cased after then final_sigma
  else small_sigma

/-- `char::to_lowercase`. -/
def char_to_lowercase (c : Char) : List Char := if is_ascii c then [c.toLower] else table.lower c

def lowercase_after (before : List Char) : List Char → List Char
  | [] => []
  | c :: rest =>
    (if c = capital_sigma then [table.map_uppercase_sigma before rest] else table.char_to_lowercase c) ++
      lowercase_after (c :: before) rest

/-- `str::to_lowercase`. -/
def to_lowercase (s : List Char) : List Char := table.lowercase_after [] s

/-- Two characters alone change to ASCII, the others keep to what they are. -/
def simple : CaseTable where
  lower c :=
    if c = Char.ofNat 0x212a then ['k']
    else if c = Char.ofNat 0x130 then ['i', Char.ofNat 0x307]
    else [c]
  cased _ := false
  case_ignorable _ := false
  lower_starts c hascii := by
    split
    · exact ⟨_, _, rfl, fun _ => .inl rfl⟩
    · split
      · exact ⟨_, _, rfl, fun _ => .inr ⟨rfl, rfl⟩⟩
      · exact ⟨_, _, rfl, fun hfirst => by rw [hascii] at hfirst; cases hfirst⟩

end CaseTable

/-- ASCII text without a `k`, in which an `i` is always followed. -/
def settled : List Char → Bool
  | [] => true
  | c :: rest => is_ascii c && c != 'k' && (c != 'i' || !rest.isEmpty) && settled rest

theorem is_ascii_sigma (table : CaseTable) (before after : List Char) :
    is_ascii (table.map_uppercase_sigma before after) = false := by
  unfold CaseTable.map_uppercase_sigma
  split <;> decide

/-- Text that has settled text as the start of its lower case form starts with as many ASCII characters.
    The two characters that become ASCII are seen: the one by its `k`, the other by what follows its `i`. -/
theorem ascii_of_lowercase_starts {table : CaseTable} {expected s before : List Char} (hsettled : settled expected)
    (hstarts : expected <+: table.lowercase_after before s) :
    ∃ first rest, s = first ++ rest ∧ first.length = expected.length ∧ ∀ c ∈ first, is_ascii c := by
  induction expected generalizing before s with
  | nil => exact ⟨[], s, rfl, rfl, nofun⟩
  | cons e expected ih =>
    simp only [settled, Bool.and_eq_true, Bool.or_eq_true, bne_iff_ne, Bool.not_eq_true'] at hsettled
    obtain ⟨⟨⟨hascii, hk⟩, hi⟩, hexpected⟩ := hsettled
    cases s with
    | nil => simp [CaseTable.lowercase_after] at hstarts
    | cons c s =>
      rw [CaseTable.lowercase_after] at hstarts
      by_cases hsigma : c = CaseTable.capital_sigma
      · rw [if_pos hsigma, List.singleton_append, List.cons_prefix_cons] at hstarts
        have hsmall := is_ascii_sigma table before s
        rw [← hstarts.1, hascii] at hsmall
        cases hsmall
      rw [if_neg hsigma, CaseTable.char_to_lowercase] at hstarts
      by_cases hc : is_ascii c = true
      · rw [if_pos hc, List.singleton_append, List.cons_prefix_cons] at hstarts
        obtain ⟨first, rest, rfl, hlength, hfirst⟩ := ih hexpected hstarts.2
        refine ⟨c :: first, rest, rfl, ?_, List.forall_mem_cons.mpr ⟨hc, hfirst⟩⟩
        rw [List.length_cons, List.length_cons, hlength]
      · rw [if_neg hc] at hstarts
        obtain ⟨first, more, hlower, hexceptions⟩ := table.lower_starts c (by simpa using hc)
        rw [hlower, List.cons_append, List.cons_prefix_cons] at hstarts
        obtain ⟨rfl, hstarts⟩ := hstarts
        obtain hkelvin | ⟨rfl, rfl⟩ := hexceptions hascii
        · exact absurd hkelvin hk
        · have hne : expected ≠ [] := by simpa using hi
          obtain ⟨d, others, rfl⟩ := List.exists_cons_of_ne_nil hne
          rw [List.singleton_append, List.cons_prefix_cons] at hstarts
          simp only [settled, Bool.and_eq_true] at hexpected
          rw [hstarts.1] at hexpected
          exact absurd hexpected.1.1.1 (by decide)

/-- Such text can be cut behind what it starts with. -/
theorem slice_from_of_lowercase_starts {table : CaseTable} {expected s : List Char} (hsettled : settled expected)
    (hstarts : expected <+: table.to_lowercase s) : ∃ rest, slice_from expected.length s = some rest := by
  obtain ⟨first, rest, rfl, hlength, hfirst⟩ := ascii_of_lowercase_starts hsettled hstarts
  exact ⟨rest, hlength ▸ slice_from_ascii hfirst rest⟩

end text
