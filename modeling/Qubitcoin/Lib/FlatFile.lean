import Mathlib.Data.List.Basic
import Mathlib.Logic.Function.Basic

/-! Records in files that are only appended to. -/

namespace flatFile

variable {B : Type}

/-- A file holds a record at a position. -/
def Holds (file : List B) (pos : Nat) (record : List B) : Prop :=
  ∃ before after, file = before ++ record ++ after ∧ before.length = pos

theorem Holds.append {file record : List B} {pos : Nat} (h : Holds file pos record) (bytes : List B) :
    Holds (file ++ bytes) pos record := by
  obtain ⟨before, after, rfl, hpos⟩ := h
  exact ⟨before, after ++ bytes, by simp only [List.append_assoc], hpos⟩

/-- A record that is appended, after the part in front of it. -/
theorem holds_append (file front record : List B) :
    Holds (file ++ (front ++ record)) (file.length + front.length) record :=
  ⟨file ++ front, [], by simp, by simp⟩

theorem Holds.drop {file record : List B} {pos : Nat} (h : Holds file pos record) :
    ∃ after, file.drop pos = record ++ after := by
  obtain ⟨before, after, rfl, rfl⟩ := h
  exact ⟨after, by rw [List.append_assoc, List.drop_left]⟩

/-- A record is read from the first part of a file, if that part reaches to its end. -/
theorem Holds.read_front {front rest record : List B} {pos : Nat} (h : Holds (front ++ rest) pos record)
    (hfront : pos + record.length ≤ front.length) : (front.drop pos).take record.length = record := by
  obtain ⟨after, hdrop⟩ := h.drop
  rw [List.drop_append_of_le_length (by omega)] at hdrop
  have htake := congrArg (List.take record.length) hdrop
  rwa [List.take_left' rfl, List.take_append_of_le_length (by rw [List.length_drop]; omega)] at htake

section

variable (header : List B → List B)

/-- Records one after the other, each with a header. -/
def framed (records : List (List B)) : List B := records.flatMap fun record => header record ++ record

/-- The places of the records, if the first header stands at the given place. -/
def places : Nat → List (List B) → List Nat
  | _, [] => []
  | start, record :: rest =>
    (start + (header record).length) :: places (start + (header record).length + record.length) rest

theorem framed_append (first second : List (List B)) :
    framed header (first ++ second) = framed header first ++ framed header second := List.flatMap_append

theorem framed_concat (records : List (List B)) (record : List B) :
    framed header (records ++ [record]) = framed header records ++ (header record ++ record) := by
  rw [framed_append]
  simp only [framed, List.flatMap_cons, List.flatMap_nil, List.append_nil]

theorem framed_cons (record : List B) (rest : List (List B)) :
    framed header (record :: rest) = header record ++ record ++ framed header rest := List.flatMap_cons

theorem length_places (start : Nat) (records : List (List B)) : (places header start records).length = records.length := by
  induction records generalizing start with
  | nil => rfl
  | cons record rest ih => exact congrArg (· + 1) (ih _)

theorem places_concat (start : Nat) (records : List (List B)) (record : List B) :
    places header start (records ++ [record]) =
      places header start records ++ [start + (framed header records).length + (header record).length] := by
  induction records generalizing start with
  | nil => rfl
  | cons first rest ih =>
    have hlength : (framed header (first :: rest)).length =
        (header first).length + first.length + (framed header rest).length := by
      rw [framed_cons, List.length_append, List.length_append]
    rw [List.cons_append, places, places, ih, List.cons_append, hlength, ← Nat.add_assoc, ← Nat.add_assoc]

end

/-- Write at an offset. What was there is replaced, and a gap before it is filled. -/
def writeAt (fill : B) (file : List B) (pos : Nat) (bytes : List B) : List B :=
  if bytes.isEmpty then file
  else file.take pos ++ List.replicate (pos - file.length) fill ++ bytes ++ file.drop (pos + bytes.length)

theorem length_take_fill (fill : B) (file : List B) (pos : Nat) :
    (file.take pos ++ List.replicate (pos - file.length) fill).length = pos := by
  rw [List.length_append, List.length_take, List.length_replicate]
  omega

theorem length_writeAt_le (fill : B) (file : List B) (pos : Nat) (bytes : List B) :
    (writeAt fill file pos bytes).length ≤ max file.length (pos + bytes.length) := by
  unfold writeAt
  split
  · exact Nat.le_max_left ..
  · rw [List.length_append, List.length_append, length_take_fill, List.length_drop]
    omega

/-- A record in front of the place of a write stays. -/
theorem Holds.writeAt {file record : List B} {pos : Nat} (h : Holds file pos record) (fill : B) {place : Nat}
    (hplace : pos + record.length ≤ place) (bytes : List B) : Holds (writeAt fill file place bytes) pos record := by
  unfold flatFile.writeAt
  split
  · exact h
  · obtain ⟨before, after, rfl, rfl⟩ := h
    have htake : (before ++ record ++ after).take place =
        before ++ record ++ after.take (place - (before ++ record).length) := by
      rw [List.take_append, List.take_of_length_le (by rw [List.length_append]; exact hplace)]
    rw [htake, List.append_assoc (before ++ record), List.append_assoc (before ++ record),
      List.append_assoc (before ++ record)]
    exact ⟨before, _, rfl, rfl⟩

theorem holds_writeAt (fill : B) (file : List B) (pos : Nat) {record : List B} (hrecord : record ≠ []) :
    Holds (writeAt fill file pos record) pos record := by
  rw [writeAt, if_neg (by rwa [List.isEmpty_iff])]
  exact ⟨_, _, rfl, length_take_fill fill file pos⟩

section

variable {I : Type} [DecidableEq I]

/-- Append to one of several files. -/
def extend (files : I → List B) (i : I) (bytes : List B) : I → List B :=
  Function.update files i (files i ++ bytes)

theorem extend_self (files : I → List B) (i : I) (bytes : List B) : extend files i bytes i = files i ++ bytes :=
  Function.update_self ..

theorem extend_of_ne (files : I → List B) {i j : I} (h : j ≠ i) (bytes : List B) : extend files i bytes j = files j :=
  Function.update_of_ne h ..

theorem Holds.extend {files : I → List B} {j : I} {pos : Nat} {record : List B} (h : Holds (files j) pos record)
    (i : I) (bytes : List B) : Holds (extend files i bytes j) pos record := by
  by_cases heq : j = i
  · subst heq
    rw [extend_self]
    exact h.append bytes
  · rwa [extend_of_ne files heq]

end

end flatFile
