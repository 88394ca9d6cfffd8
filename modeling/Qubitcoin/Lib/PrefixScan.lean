import Mathlib.Data.List.Sort
import Mathlib.Data.List.TakeWhile
import Mathlib.Tactic

/-! Reading the keys of an ordered store that begin with one letter: seek to the letter, and go on
    until a key begins with another one. -/

namespace prefixScan

variable {K : Type} [DecidableEq K] {letter : K} {keys : List (List K)}

/-- The key begins with the letter. -/
def Begins (letter : K) (key : List K) : Bool := key.head? == some letter

theorem begins_iff {key : List K} : Begins letter key = true ↔ ∃ rest, key = letter :: rest := by
  unfold Begins
  rw [beq_iff_eq]
  cases key with
  | nil => exact ⟨nofun, fun ⟨_, h⟩ => nomatch h⟩
  | cons first rest =>
    rw [List.head?_cons, Option.some.injEq]
    constructor
    · rintro rfl
      exact ⟨rest, rfl⟩
    · rintro ⟨_, heq⟩
      cases heq
      rfl

variable [LT K] [LE K] [Std.LawfulOrderLT K]

/-- A key that begins with the letter is not below it. -/
theorem not_lt_of_begins {key : List K} (hbegins : Begins letter key = true) : ¬ key < [letter] := by
  obtain ⟨rest, rfl⟩ := begins_iff.mp hbegins
  rw [List.cons_lt_cons_iff]
  rintro (hlt | ⟨_, hlt⟩)
  · exact Std.lt_irrefl hlt
  · cases hlt

variable [Std.IsLinearOrder K]

/-- Between the letter and a key that begins with it, there are only such keys. -/
theorem begins_of_le {key other : List K} (hfrom : ¬ key < [letter]) (hle : key ≤ other)
    (hbegins : Begins letter other = true) : Begins letter key = true := by
  obtain ⟨rest, rfl⟩ := begins_iff.mp hbegins
  cases key with
  | nil => exact absurd (List.nil_lt_cons letter []) hfrom
  | cons first tail =>
    refine begins_iff.mpr ⟨tail, ?_⟩
    obtain hlt | ⟨rfl, _⟩ := List.cons_le_cons_iff.mp hle
    · exact absurd (List.cons_lt_cons_iff.mpr (.inl hlt)) hfrom
    · rfl

/-- Of sorted keys, none of which is below the letter, those that begin with it come first. -/
theorem takeWhile_begins : ∀ {keys : List (List K)}, keys.Pairwise (· ≤ ·) → (∀ key ∈ keys, ¬ key < [letter]) →
    keys.takeWhile (Begins letter) = keys.filter (Begins letter) := by
  intro keys hsorted hfrom
  induction keys with
  | nil => rfl
  | cons key rest ih =>
    obtain ⟨hle, hsorted⟩ := List.pairwise_cons.mp hsorted
    have hrest := ih hsorted fun other hmem => hfrom other (List.mem_cons_of_mem _ hmem)
    cases hbegins : Begins letter key with
    | true => rw [List.takeWhile_cons_of_pos hbegins, List.filter_cons_of_pos hbegins, hrest]
    | false =>
      have hnone : ∀ other ∈ rest, ¬ Begins letter other = true := by
        intro other hmem hother
        rw [begins_of_le (hfrom key List.mem_cons_self) (hle other hmem) hother] at hbegins
        cases hbegins
      rw [List.takeWhile_cons_of_neg (by rw [hbegins]; exact Bool.false_ne_true),
        List.filter_cons_of_neg (by rw [hbegins]; exact Bool.false_ne_true), List.filter_eq_nil_iff.mpr hnone]

variable [DecidableLT K]

/-- The key comes before a start. -/
def Below (start key : List K) : Bool := decide (key < start)

/-- The keys of the store from the first one on that is not below a given key, in their order. -/
def seek (start : List K) (keys : List (List K)) : List (List K) :=
  (keys.insertionSort (· ≤ ·)).dropWhile (Below start)

/-- What a seek leaves of sorted keys is sorted and not below the start. -/
theorem not_lt_of_mem_dropWhile {start : List K} : ∀ {keys : List (List K)}, keys.Pairwise (· ≤ ·) →
    ∀ key ∈ keys.dropWhile (Below start), ¬ key < start := by
  intro keys hsorted
  induction keys with
  | nil => exact nofun
  | cons key rest ih =>
    obtain ⟨hle, hsorted⟩ := List.pairwise_cons.mp hsorted
    by_cases hbelow : Below start key = true
    · rw [List.dropWhile_cons_of_pos hbelow]
      exact ih hsorted
    · have hlt : ¬ key < start := fun hlt => hbelow (decide_eq_true hlt)
      rw [List.dropWhile_cons_of_neg hbelow]
      intro other hmem hother
      obtain rfl | hmem := List.mem_cons.mp hmem
      · exact hlt hother
      · exact hlt (Std.lt_of_le_of_lt (hle other hmem) hother)

/-- The scan lists the keys that begin with the letter, each as often as it is stored. -/
theorem takeWhile_seek (letter : K) (keys : List (List K)) :
    ((seek [letter] keys).takeWhile (Begins letter)).Perm (keys.filter (Begins letter)) := by
  have hsorted : (keys.insertionSort (· ≤ ·)).Pairwise (· ≤ ·) := List.pairwise_insertionSort _ _
  have hfrom : ∀ key ∈ seek [letter] keys, ¬ key < [letter] := not_lt_of_mem_dropWhile hsorted
  have hdropped : ((keys.insertionSort (· ≤ ·)).takeWhile (Below [letter])).filter (Begins letter) = [] := by
    refine List.filter_eq_nil_iff.mpr fun key hmem hbegins => ?_
    have hbelow : Below [letter] key = true := List.mem_takeWhile_imp hmem
    exact not_lt_of_begins hbegins (of_decide_eq_true hbelow)
  have hsplit : (keys.insertionSort (· ≤ ·)).filter (Begins letter) = (seek [letter] keys).filter (Begins letter) := by
    rw [← List.takeWhile_append_dropWhile (p := Below [letter]) (l := keys.insertionSort (· ≤ ·)),
      List.filter_append, hdropped]
    rfl
  have hseek : (seek [letter] keys).Pairwise (· ≤ ·) := hsorted.sublist (List.dropWhile_sublist _)
  rw [takeWhile_begins hseek hfrom, ← hsplit]
  exact (List.perm_insertionSort _ keys).filter _

end prefixScan
