import Mathlib.Tactic

/-! Slices that are read by position: every index and every sum of positions is checked. -/

namespace slices

/-- Why an access aborts. -/
inductive Fault where
  | out_of_bounds
  | length_mismatch
  | none_unwrapped
  | overflow
  deriving DecidableEq, Repr

variable {A B : Type}

/-- The elements from `start` up to `stop`, both of which must be in order and within the data. -/
def slice (data : List A) (start stop : Nat) : Except Fault (List A) :=
  if start ≤ stop ∧ stop ≤ data.length then .ok ((data.drop start).take (stop - start)) else .error .out_of_bounds

/-- The element at a position. -/
def index (data : List A) (pos : Nat) : Except Fault A :=
  match data[pos]? with
  | some a => .ok a
  | none => .error .out_of_bounds

/-- The sum of two positions, which are 64 bits wide. -/
def add (a b : Nat) : Except Fault Nat := if a + b < 2 ^ 64 then .ok (a + b) else .error .overflow

/-- The sum, where it is a position. -/
def checked_add (a b : Nat) : Option Nat := if a + b < 2 ^ 64 then some (a + b) else none

/-- A slice as an array of `n` elements. -/
def try_into (n : Nat) (data : List A) : Option (List A) := if data.length = n then some data else none

def unwrap : Option A → Except Fault A
  | some a => .ok a
  | none => .error .none_unwrapped

/-- An array of `n` elements that is filled from a slice. -/
def copy_from_slice (n : Nat) (data : List A) : Except Fault (List A) :=
  if data.length = n then .ok data else .error .length_mismatch

/-- An access of a function that may end without a value. -/
def access (x : Except Fault A) : OptionT (Except Fault) A := OptionT.lift x

/-- A value that is missing ends the function that reads it. -/
def attempt (value : Option A) : OptionT (Except Fault) A := OptionT.mk (.ok value)

/-- Entries of a fixed size from a position on, up to a count; the loop ends where the next one
    would not be within the data. Also the position at which it ends. -/
def entries (data : List A) (size : Nat) (read : Nat → Except Fault (Option B)) :
    (count pos : Nat) → Except Fault (List B × Nat)
  | 0, pos => .ok ([], pos)
  | count + 1, pos => do
    let stop ← add pos size
    if stop > data.length then .ok ([], pos)
    else
      let entry ← read pos
      let next ← add pos size
      let (rest, last) ← entries data size read count next
      .ok (entry.toList ++ rest, last)

variable {data : List A} {start stop pos : Nat}

theorem slice_of_le (horder : start ≤ stop) (hstop : stop ≤ data.length) :
    slice data start stop = .ok ((data.drop start).take (stop - start)) := if_pos ⟨horder, hstop⟩

/-- The rest of the data. -/
theorem slice_length (hstart : start ≤ data.length) : slice data start data.length = .ok (data.drop start) := by
  rw [slice_of_le hstart (Nat.le_refl _), List.take_of_length_le (by rw [List.length_drop])]

theorem index_of_lt (hpos : pos < data.length) : index data pos = .ok data[pos] := by
  rw [index, List.getElem?_eq_getElem hpos]

theorem add_of_lt {a b : Nat} (hsum : a + b < 2 ^ 64) : add a b = .ok (a + b) := if_pos hsum

theorem checked_add_of_lt {a b : Nat} (hsum : a + b < 2 ^ 64) : checked_add a b = some (a + b) := if_pos hsum

theorem try_into_eq {n : Nat} (hlength : data.length = n) : try_into n data = some data := if_pos hlength

theorem copy_from_slice_eq {n : Nat} (hlength : data.length = n) : copy_from_slice n data = .ok data := if_pos hlength

theorem length_take_drop {n : Nat} (hstop : start + n ≤ data.length) : ((data.drop start).take n).length = n := by
  rw [List.length_take, List.length_drop]
  omega

/-- A slice of `n` elements is an array of `n` elements. -/
theorem try_into_take_drop {n : Nat} (hstop : start + n ≤ data.length) :
    try_into n ((data.drop start).take n) = some ((data.drop start).take n) :=
  try_into_eq (length_take_drop hstop)

theorem copy_take_drop {n : Nat} (hstop : start + n ≤ data.length) :
    copy_from_slice n ((data.drop start).take n) = .ok ((data.drop start).take n) :=
  copy_from_slice_eq (length_take_drop hstop)

theorem run_attempt_bind (value : Option A) (f : A → OptionT (Except Fault) B) :
    (attempt value >>= f).run = match value with
      | none => .ok none
      | some a => (f a).run := by
  cases value <;> rfl

theorem run_bind_of_some {x : OptionT (Except Fault) A} {a : A} (hx : x.run = .ok (some a))
    (f : A → OptionT (Except Fault) B) : (x >>= f).run = (f a).run := by
  change (x.run >>= _) = _
  rw [hx]
  rfl

theorem run_bind_of_none {x : OptionT (Except Fault) A} (hx : x.run = .ok none)
    (f : A → OptionT (Except Fault) B) : (x >>= f).run = .ok none := by
  change (x.run >>= _) = _
  rw [hx]
  rfl

/-- An access within the data does not end the function. -/
theorem run_access_bind {x : Except Fault A} {a : A} (hx : x = .ok a) (f : A → OptionT (Except Fault) B) :
    (access x >>= f).run = (f a).run := by
  rw [hx]
  rfl

/-- The entries that the loop finds, from what stands at a position. -/
def entries_of (size : Nat) (read : List A → Option B) : (count : Nat) → List A → List B × List A
  | 0, data => ([], data)
  | count + 1, data =>
    if data.length < size then ([], data)
    else
      let (rest, last) := entries_of size read count (data.drop size)
      ((read (data.take size)).toList ++ rest, last)

/-- The loop reads nothing outside the data where its body reads nothing outside an entry. -/
theorem entries_eq_ok {size : Nat} {read : Nat → Except Fault (Option B)} {value : List A → Option B}
    (hsize : data.length + size < 2 ^ 64)
    (hread : ∀ pos, pos + size ≤ data.length → read pos = .ok (value ((data.drop pos).take size)))
    (count : Nat) (hpos : pos ≤ data.length) :
    ∃ last, last ≤ data.length ∧
      entries data size read count pos = .ok ((entries_of size value count (data.drop pos)).1, last) ∧
      data.drop last = (entries_of size value count (data.drop pos)).2 := by
  induction count generalizing pos with
  | zero => exact ⟨pos, hpos, rfl, rfl⟩
  | succ count ih =>
    have hadd : add pos size = .ok (pos + size) := add_of_lt (by omega)
    have hrest : (data.drop pos).length = data.length - pos := List.length_drop
    rw [entries, entries_of, hadd]
    dsimp only [bind, Except.bind]
    by_cases hend : pos + size > data.length
    · rw [if_pos hend, if_pos (by omega)]
      exact ⟨pos, hpos, rfl, rfl⟩
    · obtain ⟨last, hlast, hentries, hdrop⟩ := @ih (pos + size) (Nat.not_lt.mp hend)
      rw [if_neg hend, if_neg (by omega), hread pos (Nat.not_lt.mp hend)]
      dsimp only
      rw [hentries]
      rw [← List.drop_drop] at hdrop
      refine ⟨last, hlast, ?_, hdrop⟩
      rw [List.drop_drop]

end slices
