import Mathlib.Data.List.AList
import Mathlib.Algebra.BigOperators.Group.List.Basic
import Mathlib.Algebra.Ring.Nat

/-! The sum of a size over the entries of a finite map. -/

namespace mapTotal

variable {K V : Type} (size : V → Nat)

/-- The sum of the sizes of all values. -/
def total (map : AList fun _ : K => V) : Nat := (map.entries.map fun entry => size entry.2).sum

variable [DecidableEq K]

/-- An entry weighs its own size. -/
theorem total_erase {map : AList fun _ : K => V} {key : K} {value : V} (hlookup : map.lookup key = some value) :
    total size (map.erase key) + size value = total size map := by
  have hmem : key ∈ map.entries.keys := by
    have hkey : key ∈ map := AList.lookup_isSome.mp (by rw [hlookup]; rfl)
    exact hkey
  obtain ⟨found, before, after, _, hsplit, herase⟩ := List.exists_of_kerase hmem
  obtain rfl : found = value := by
    have hentry : (⟨key, found⟩ : Σ _ : K, V) ∈ map.entries := by
      rw [hsplit]
      exact List.mem_append_right _ List.mem_cons_self
    have hfound := AList.mem_lookup_iff.mpr hentry
    rw [hlookup] at hfound
    exact (Option.some.inj hfound).symm
  change ((map.entries.kerase key).map fun entry => size entry.2).sum + size found =
    (map.entries.map fun entry => size entry.2).sum
  rw [herase, hsplit, List.map_append, List.map_append, List.map_cons, List.sum_append, List.sum_append, List.sum_cons]
  dsimp only
  omega

theorem total_erase_of_none {map : AList fun _ : K => V} {key : K} (hlookup : map.lookup key = none) :
    total size (map.erase key) = total size map := by
  have hmem : key ∉ map.entries.keys := by
    intro hmem
    have hkey : key ∈ map := hmem
    rw [← AList.lookup_isSome, hlookup] at hkey
    cases hkey
  change ((map.entries.kerase key).map fun entry => size entry.2).sum = total size map
  rw [List.kerase_of_notMem_keys hmem]
  rfl

theorem total_insert (map : AList fun _ : K => V) (key : K) (value : V) :
    total size (map.insert key value) = size value + total size (map.erase key) := by
  unfold total
  rw [AList.entries_insert, List.map_cons, List.sum_cons]
  rfl

/-- A new entry adds its size. -/
theorem total_insert_new {map : AList fun _ : K => V} {key : K} (hlookup : map.lookup key = none) (value : V) :
    total size (map.insert key value) = total size map + size value := by
  rw [total_insert, total_erase_of_none size hlookup, Nat.add_comm]

/-- A replaced entry changes the sum by the two sizes. -/
theorem total_insert_old {map : AList fun _ : K => V} {key : K} {old : V} (hlookup : map.lookup key = some old)
    (value : V) : total size (map.insert key value) + size old = total size map + size value := by
  rw [total_insert, ← total_erase size hlookup]
  omega

/-- A list of entries with different keys is a map of the same sum. -/
theorem total_toAList {entries : List (Σ _ : K, V)} (hkeys : entries.NodupKeys) :
    total size entries.toAList = (entries.map fun entry => size entry.2).sum := by
  induction entries with
  | nil => rfl
  | cons entry rest ih =>
    obtain ⟨hkey, hrest⟩ := List.nodupKeys_cons.mp hkeys
    have hlookup : rest.toAList.lookup entry.1 = none := by
      rw [AList.lookup_to_alist, List.dlookup_eq_none]
      exact hkey
    change total size (rest.toAList.insert entry.1 entry.2) = _
    rw [total_insert_new size hlookup, ih hrest, List.map_cons, List.sum_cons, Nat.add_comm]

theorem le_total {map : AList fun _ : K => V} {key : K} {value : V} (hlookup : map.lookup key = some value) :
    size value ≤ total size map := by
  rw [← total_erase size hlookup]
  exact Nat.le_add_left _ _

end mapTotal

/-! Ordered write batches over a key-value map. -/

namespace kv

variable {K V : Type}

inductive Op (K V : Type) where
  | put (key : K) (value : V)
  | delete (key : K)

variable [DecidableEq K]

def Op.apply (db : AList fun _ : K => V) : Op K V → AList fun _ : K => V
  | .put key value => db.insert key value
  | .delete key => db.erase key

/-- All the operations of a batch, in their order. -/
def write (db : AList fun _ : K => V) (batch : List (Op K V)) : AList fun _ : K => V := batch.foldl Op.apply db

@[simp] theorem write_nil (db : AList fun _ : K => V) : write db [] = db := rfl

theorem write_append (db : AList fun _ : K => V) (first second : List (Op K V)) :
    write db (first ++ second) = write (write db first) second := List.foldl_append

theorem lookup_put (db : AList fun _ : K => V) (key query : K) (value : V) :
    (Op.apply db (.put key value)).lookup query = if query = key then some value else db.lookup query := by
  simp only [Op.apply]
  split
  next h => rw [h, AList.lookup_insert]
  next h => rw [AList.lookup_insert_ne h]

theorem lookup_delete (db : AList fun _ : K => V) (key query : K) :
    (Op.apply db (.delete key)).lookup query = if query = key then none else db.lookup query := by
  simp only [Op.apply]
  split
  next h => rw [h, AList.lookup_erase]
  next h => rw [AList.lookup_erase_ne h]

end kv
