import Qubitcoin.Lib.LittleEndian
import Mathlib.Data.List.AList
import Mathlib.Data.List.Induction

/-! Byte strings that stand after their lengths, lists of pairs of them, and the maps that are
    filled with such pairs. A length is the low 32 bits, least significant byte first. -/

namespace chunks

/-- A byte string after its length. -/
def write (bytes : List UInt8) : List UInt8 := littleEndian.toBytes 4 bytes.length ++ bytes

/-- Where a reader finds the input cut short. -/
inductive Cut where
  | length | bytes
  deriving DecidableEq, Repr

/-- The number in the first four bytes, and the rest. -/
def read_nat (data : List UInt8) : Option (Nat × List UInt8) :=
  if data.length < 4 then none else some (littleEndian.ofBytes (data.take 4), data.drop 4)

/-- A byte string after its length, and the rest. -/
def read (data : List UInt8) : Except Cut (List UInt8 × List UInt8) :=
  match read_nat data with
  | none => .error .length
  | some (len, rest) => if rest.length < len then .error .bytes else .ok (rest.take len, rest.drop len)

theorem read_nat_toBytes {n : Nat} (hfit : n < 2 ^ 32) (rest : List UInt8) :
    read_nat (littleEndian.toBytes 4 n ++ rest) = some (n, rest) := by
  have hlength : (littleEndian.toBytes 4 n).length = 4 := littleEndian.length_toBytes 4 n
  rw [read_nat, if_neg (by rw [List.length_append]; omega), List.take_left' hlength, List.drop_left' hlength,
    littleEndian.ofBytes_toBytes hfit]

theorem read_write {bytes : List UInt8} (hfit : bytes.length < 2 ^ 32) (rest : List UInt8) :
    read (write bytes ++ rest) = .ok (bytes, rest) := by
  rw [read, write, List.append_assoc, read_nat_toBytes hfit]
  dsimp only
  rw [if_neg (by rw [List.length_append]; omega), List.take_left, List.drop_left]

/-- Where a reader of pairs finds the input cut short. -/
inductive PairCut where
  | first (cut : Cut)
  | second (cut : Cut)
  deriving DecidableEq, Repr

def write_pair (pair : List UInt8 × List UInt8) : List UInt8 := write pair.1 ++ write pair.2

def read_pair (data : List UInt8) : Except PairCut ((List UInt8 × List UInt8) × List UInt8) :=
  match read data with
  | .error cut => .error (.first cut)
  | .ok (first, data) =>
    match read data with
    | .error cut => .error (.second cut)
    | .ok (second, data) => .ok ((first, second), data)

/-- Read a number of pairs: those that are read, and where the input is cut short if it is. -/
def read_pairs : Nat → List UInt8 → List (List UInt8 × List UInt8) × Except PairCut (List UInt8)
  | 0, data => ([], .ok data)
  | count + 1, data =>
    match read_pair data with
    | .error cut => ([], .error cut)
    | .ok (pair, data) =>
      let (pairs, result) := read_pairs count data
      (pair :: pairs, result)

/-- Both parts of a pair have lengths that fit. -/
def Fits (pair : List UInt8 × List UInt8) : Prop := pair.1.length < 2 ^ 32 ∧ pair.2.length < 2 ^ 32

theorem read_pair_write_pair {pair : List UInt8 × List UInt8} (hfits : Fits pair) (rest : List UInt8) :
    read_pair (write_pair pair ++ rest) = .ok (pair, rest) := by
  rw [read_pair, write_pair, List.append_assoc, read_write hfits.1]
  dsimp only
  rw [read_write hfits.2]

theorem read_pairs_write_pair {pairs : List (List UInt8 × List UInt8)} (hfits : ∀ pair ∈ pairs, Fits pair)
    (rest : List UInt8) : read_pairs pairs.length (pairs.flatMap write_pair ++ rest) = (pairs, .ok rest) := by
  induction pairs with
  | nil => rfl
  | cons pair pairs ih =>
    have htail := ih fun other hother => hfits other (List.mem_cons_of_mem _ hother)
    rw [List.flatMap_cons, List.append_assoc, List.length_cons, read_pairs,
      read_pair_write_pair (hfits pair List.mem_cons_self)]
    dsimp only
    rw [htail]

theorem read_nat_lt {data rest : List UInt8} {n : Nat} (hread : read_nat data = some (n, rest)) : n < 2 ^ 32 := by
  unfold read_nat at hread
  split at hread
  · cases hread
  · next hlong =>
    have hbound := littleEndian.ofBytes_lt (data.take 4)
    rw [List.length_take_of_le (Nat.not_lt.mp hlong)] at hbound
    obtain ⟨rfl, rfl⟩ := Prod.mk.inj (Option.some.inj hread)
    exact hbound

/-- What is read fits, whatever the input. -/
theorem length_of_read {data bytes rest : List UInt8} (hread : read data = .ok (bytes, rest)) :
    bytes.length < 2 ^ 32 := by
  unfold read at hread
  split at hread
  · cases hread
  · next len rest' hlen =>
    split at hread
    · cases hread
    · obtain ⟨rfl, rfl⟩ := Prod.mk.inj (Except.ok.inj hread)
      exact Nat.lt_of_le_of_lt (List.length_take_le _ _) (read_nat_lt hlen)

theorem read_eq_ok {data bytes rest : List UInt8} :
    read data = .ok (bytes, rest) ↔ bytes.length < 2 ^ 32 ∧ data = write bytes ++ rest := by
  constructor
  · intro hread
    refine ⟨length_of_read hread, ?_⟩
    unfold read read_nat at hread
    split at hread
    · cases hread
    · next len tail hlen =>
      split at hlen
      · cases hlen
      · next hlong =>
        obtain ⟨rfl, rfl⟩ := Prod.mk.inj (Option.some.inj hlen)
        split at hread
        · cases hread
        · next henough =>
          obtain ⟨rfl, rfl⟩ := Prod.mk.inj (Except.ok.inj hread)
          have htake : (data.take 4).length = 4 := List.length_take_of_le (Nat.not_lt.mp hlong)
          have hhead := littleEndian.toBytes_ofBytes (data.take 4)
          rw [htake] at hhead
          rw [write, List.length_take_of_le (Nat.not_lt.mp henough), hhead, List.append_assoc, List.take_append_drop,
            List.take_append_drop]
  · rintro ⟨hfit, rfl⟩
    exact read_write hfit rest

theorem read_pair_eq_ok {data rest : List UInt8} {pair : List UInt8 × List UInt8} :
    read_pair data = .ok (pair, rest) ↔ Fits pair ∧ data = write_pair pair ++ rest := by
  constructor
  · intro hread
    unfold read_pair at hread
    split at hread
    · cases hread
    · next first tail hfirst =>
      split at hread
      · cases hread
      · next second tail' hsecond =>
        obtain ⟨rfl, rfl⟩ := Prod.mk.inj (Except.ok.inj hread)
        obtain ⟨hfirst_fits, rfl⟩ := read_eq_ok.mp hfirst
        obtain ⟨hsecond_fits, rfl⟩ := read_eq_ok.mp hsecond
        exact ⟨⟨hfirst_fits, hsecond_fits⟩, (List.append_assoc _ _ _).symm⟩
  · rintro ⟨hfits, rfl⟩
    exact read_pair_write_pair hfits rest

/-- The data begin with the pairs, which are as many as announced, or fewer where the next one is cut short. -/
def Stand (count : Nat) (pairs : List (List UInt8 × List UInt8)) (data : List UInt8) : Prop :=
  (∀ pair ∈ pairs, Fits pair) ∧ ∃ rest, data = pairs.flatMap write_pair ++ rest ∧
    (pairs.length = count ∨ pairs.length < count ∧ ∀ pair more, Fits pair → rest ≠ write_pair pair ++ more)

theorem stand_iff {count : Nat} {list : List (List UInt8 × List UInt8)} {data : List UInt8} :
    Stand count list data ↔ list = (read_pairs count data).1 := by
  induction count generalizing list data with
  | zero =>
    constructor
    · rintro ⟨-, rest, -, hlength | ⟨hless, -⟩⟩
      · exact List.length_eq_zero_iff.mp hlength
      · omega
    · rintro rfl
      exact ⟨nofun, data, rfl, .inl rfl⟩
  | succ count ih =>
    rw [read_pairs]
    cases hpair : read_pair data with
    | error cut =>
      have hcut : ∀ pair more, Fits pair → data ≠ write_pair pair ++ more := by
        intro pair more hfits heq
        rw [read_pair_eq_ok.mpr ⟨hfits, heq⟩] at hpair
        cases hpair
      constructor
      · rintro ⟨hfits, rest, hdata, -⟩
        cases list with
        | nil => rfl
        | cons pair more =>
          rw [List.flatMap_cons, List.append_assoc] at hdata
          exact absurd hdata (hcut pair _ (hfits pair List.mem_cons_self))
      · rintro rfl
        exact ⟨nofun, data, rfl, .inr ⟨Nat.succ_pos count, hcut⟩⟩
    | ok result =>
      obtain ⟨pair, tail⟩ := result
      obtain ⟨hfits, hdata⟩ := read_pair_eq_ok.mp hpair
      dsimp only
      constructor
      · rintro ⟨hall, rest, hstands, hlength⟩
        cases list with
        | nil =>
          obtain hzero | ⟨-, hcut⟩ := hlength
          · cases hzero
          · exact absurd (hstands.symm.trans hdata) (hcut pair tail hfits)
        | cons first more =>
          rw [List.flatMap_cons, List.append_assoc] at hstands
          have hsame := (read_pair_eq_ok.mpr ⟨hall first List.mem_cons_self, hstands⟩).symm.trans hpair
          obtain ⟨rfl, rfl⟩ := Prod.mk.inj (Except.ok.inj hsame)
          rw [List.length_cons] at hlength
          refine congrArg (first :: ·) (ih.mp ⟨fun other hother => hall other (List.mem_cons_of_mem _ hother), rest, rfl, ?_⟩)
          exact hlength.imp Nat.succ.inj fun hless => ⟨Nat.lt_of_succ_lt_succ hless.1, hless.2⟩
      · rintro rfl
        obtain ⟨hall, rest, htail, hlength⟩ := ih.mpr rfl
        refine ⟨List.forall_mem_cons.mpr ⟨hfits, hall⟩, rest, ?_, ?_⟩
        · rw [List.flatMap_cons, List.append_assoc, ← htail]
          exact hdata
        · rw [List.length_cons]
          exact hlength.imp (congrArg Nat.succ) fun hless => ⟨Nat.succ_lt_succ hless.1, hless.2⟩

theorem read_pairs_fits {count : Nat} {data : List UInt8} :
    (read_pairs count data).1.length ≤ count ∧ ∀ pair ∈ (read_pairs count data).1, Fits pair := by
  induction count generalizing data with
  | zero => exact ⟨Nat.le_refl 0, nofun⟩
  | succ count ih =>
    rw [read_pairs]
    cases hpair : read_pair data with
    | error cut => exact ⟨Nat.zero_le _, nofun⟩
    | ok result =>
      obtain ⟨pair, rest⟩ := result
      obtain ⟨hlength, hrest⟩ := @ih rest
      refine ⟨Nat.succ_le_succ hlength, fun other hother => ?_⟩
      rcases List.mem_cons.mp hother with rfl | hmem
      · unfold read_pair at hpair
        split at hpair
        · cases hpair
        · next first data' hfirst =>
          split at hpair
          · cases hpair
          · next second rest' hsecond =>
            obtain ⟨rfl, rfl⟩ := Prod.mk.inj (Except.ok.inj hpair)
            exact ⟨length_of_read hfirst, length_of_read hsecond⟩
      · exact hrest other hmem

section

variable {K V : Type} [DecidableEq K]

/-- The map of some pairs; of pairs with one key the last one counts. -/
def fill (pairs : List (K × V)) : AList fun _ : K => V := pairs.foldl (fun map pair => map.insert pair.1 pair.2) ∅

def pairs (map : AList fun _ : K => V) : List (K × V) := map.entries.map fun entry => (entry.1, entry.2)

theorem fill_concat (list : List (K × V)) (pair : K × V) : fill (list ++ [pair]) = (fill list).insert pair.1 pair.2 := by
  unfold fill
  rw [List.foldl_append]
  rfl

theorem lookup_fill_concat (list : List (K × V)) (pair : K × V) (key : K) :
    (fill (list ++ [pair])).lookup key = if key = pair.1 then some pair.2 else (fill list).lookup key := by
  rw [fill_concat]
  split
  · next heq => rw [heq, AList.lookup_insert]
  · next hne => rw [AList.lookup_insert_ne hne]

def last_value (list : List (K × V)) (key : K) : Option V :=
  (list.reverse.find? fun pair => decide (pair.1 = key)).map Prod.snd

theorem lookup_fill_eq (list : List (K × V)) (key : K) : (fill list).lookup key = last_value list key := by
  induction list using List.reverseRecOn with
  | nil => rfl
  | append_singleton list pair ih =>
    rw [lookup_fill_concat, ih, last_value, last_value, List.reverse_append, List.reverse_singleton,
      List.singleton_append]
    by_cases hsame : key = pair.1
    · rw [if_pos hsame, List.find?_cons, decide_eq_true hsame.symm]
      rfl
    · rw [if_neg hsame, List.find?_cons, decide_eq_false fun heq => hsame heq.symm]

theorem lookup_fill_map {W : Type} (f : V → W) (list : List (K × V)) (key : K) :
    (fill (list.map fun pair => (pair.1, f pair.2))).lookup key = ((fill list).lookup key).map f := by
  induction list using List.reverseRecOn with
  | nil => rfl
  | append_singleton list pair ih =>
    rw [List.map_append, List.map_singleton, lookup_fill_concat, lookup_fill_concat, ih]
    split <;> rfl

theorem mem_of_lookup_fill {list : List (K × V)} {key : K} {value : V} (hlookup : (fill list).lookup key = some value) :
    (key, value) ∈ list := by
  induction list using List.reverseRecOn with
  | nil => cases hlookup
  | append_singleton list pair ih =>
    rw [fill_concat] at hlookup
    by_cases heq : key = pair.1
    · rw [heq, AList.lookup_insert] at hlookup
      obtain rfl := Option.some.inj hlookup
      rw [heq]
      exact List.mem_append_right _ List.mem_cons_self
    · rw [AList.lookup_insert_ne heq] at hlookup
      exact List.mem_append_left _ (ih hlookup)

/-- The keys of the pairs are distinct: the map has exactly these pairs. -/
theorem lookup_fill {list : List (K × V)} (hnodup : (list.map Prod.fst).Nodup) {key : K} {value : V} :
    (fill list).lookup key = some value ↔ (key, value) ∈ list := by
  refine ⟨mem_of_lookup_fill, fun hmem => ?_⟩
  induction list using List.reverseRecOn with
  | nil => cases hmem
  | append_singleton list pair ih =>
    rw [List.map_append, List.nodup_append] at hnodup
    obtain ⟨hlist, -, hdisjoint⟩ := hnodup
    rw [fill_concat]
    rcases List.mem_append.mp hmem with hold | hnew
    · have hne : key ≠ pair.1 := hdisjoint key (List.mem_map_of_mem hold) pair.1 List.mem_cons_self
      rw [AList.lookup_insert_ne hne]
      exact ih hlist hold
    · obtain rfl := List.mem_singleton.mp hnew
      exact AList.lookup_insert _

theorem mem_pairs {map : AList fun _ : K => V} {key : K} {value : V} :
    (key, value) ∈ pairs map ↔ map.lookup key = some value := by
  rw [show map.lookup key = some value ↔ value ∈ map.lookup key from Iff.rfl, AList.mem_lookup_iff]
  constructor
  · intro hmem
    obtain ⟨⟨other, found⟩, hentry, heq⟩ := List.mem_map.mp hmem
    obtain ⟨rfl, rfl⟩ := Prod.mk.inj heq
    exact hentry
  · intro hentry
    exact List.mem_map.mpr ⟨⟨key, value⟩, hentry, rfl⟩

omit [DecidableEq K] in
theorem pairs_map_fst (map : AList fun _ : K => V) : (pairs map).map Prod.fst = map.keys := by
  unfold pairs
  rw [List.map_map]
  rfl

/-- Filling a map with the pairs of a map, in any order. -/
theorem lookup_fill_pairs {map : AList fun _ : K => V} {list : List (K × V)} (hperm : list.Perm (pairs map)) (key : K) :
    (fill list).lookup key = map.lookup key := by
  have hnodup : (list.map Prod.fst).Nodup := by
    rw [(hperm.map Prod.fst).nodup_iff, pairs_map_fst]
    exact map.keys_nodup
  apply Option.ext
  intro value
  rw [lookup_fill hnodup, hperm.mem_iff, mem_pairs]

end

end chunks
