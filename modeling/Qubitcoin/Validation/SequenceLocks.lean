import Qubitcoin.Validation.Connect

/-! The two limits that the relative lock times of all inputs are folded into, against the lock
    time of each input. -/

open qubitcoin.transaction

namespace qubitcoin.validation

/-- The relative lock time of the input is enforced: it does not have the disable bit. -/
def Counted (input : TxIn) : Prop := input.sequence &&& SEQUENCE_LOCKTIME_DISABLE_FLAG = 0

/-- The relative lock time is one in blocks, not in units of 512 seconds. -/
def InBlocks (input : TxIn) : Prop := input.sequence &&& SEQUENCE_LOCKTIME_TYPE_FLAG = 0

instance (input : TxIn) : Decidable (InBlocks input) := inferInstanceAs (Decidable (_ = _))

def lock_value (input : TxIn) : Int := (input.sequence &&& SEQUENCE_LOCKTIME_MASK).toNat

/-- An input satisfies its own relative lock time in a block: that many blocks are above the one
    of its coin, or that much median time has passed since the block before that one. -/
def LockSatisfied (mtp_at : Int → Int) (block_height prev_block_mtp : Int) (input : TxIn) (coin_height : Int) : Prop :=
  if InBlocks input then coin_height + lock_value input ≤ block_height
  else mtp_at (max (coin_height - 1) 0) + lock_value input * 512 ≤ prev_block_mtp

/-- The sums for an input stay within their machine types. -/
def SumsFit (mtp_at : Int → Int) (input : TxIn) (coin_height : Int) : Prop :=
  if InBlocks input then
    IntType.i32.fits (coin_height + lock_value input) ∧ IntType.i32.fits (coin_height + lock_value input - 1)
  else IntType.i32.fits (coin_height - 1) ∧
    IntType.i64.fits (mtp_at (max (coin_height - 1) 0) + lock_value input * 512) ∧
    IntType.i64.fits (mtp_at (max (coin_height - 1) 0) + lock_value input * 512 - 1)

variable {S : Type} {mtp_at : Int → Int} {locks : SequenceLockPair} {input : TxIn} {coin_height : Int}
variable {rest : List (TxIn × Int)}

def locks_after (mtp_at : Int → Int) (locks : SequenceLockPair) (input : TxIn) (coin_height : Int) : SequenceLockPair :=
  if InBlocks input then { locks with height := max locks.height (coin_height + lock_value input - 1) }
  else { locks with time := max locks.time (mtp_at (max (coin_height - 1) 0) + lock_value input * 512 - 1) }

theorem locks_after_lt {block_height prev_block_mtp : Int} :
    (locks_after mtp_at locks input coin_height).height < block_height ∧
        (locks_after mtp_at locks input coin_height).time < prev_block_mtp ↔
      (locks.height < block_height ∧ locks.time < prev_block_mtp) ∧
        LockSatisfied mtp_at block_height prev_block_mtp input coin_height := by
  unfold locks_after LockSatisfied
  by_cases hblocks : InBlocks input
  · rw [if_pos hblocks, if_pos hblocks]
    dsimp only
    omega
  · rw [if_neg hblocks, if_neg hblocks]
    dsimp only
    omega

theorem map_eq_ok_iff {E A B : Type} {x : Except E A} {f : A → B} {y : B} : x.map f = .ok y ↔ ∃ a, x = .ok a ∧ f a = y := by
  cases x <;> simp [Except.map]

theorem exists_map_eq_ok {E A B : Type} {x : Except E A} {f : A → B} :
    (∃ y, x.map f = .ok y) ↔ ∃ a, x = .ok a := by
  cases x <;> simp [Except.map]

theorem shift_granularity (n : Nat) : ((n <<< SEQUENCE_LOCKTIME_GRANULARITY : Nat) : Int) = n * 512 := by
  rw [Nat.shiftLeft_eq]
  push_cast [SEQUENCE_LOCKTIME_GRANULARITY]
  rfl

theorem sequence_locks_from_skip (hskipped : ¬ Counted input) :
    (sequence_locks_from mtp_at locks ((input, coin_height) :: rest) : Except (Failure S) _) =
      (sequence_locks_from mtp_at locks rest).map fun result => (result.1, 0 :: result.2) := by
  have hdisabled : input.sequence &&& SEQUENCE_LOCKTIME_DISABLE_FLAG ≠ 0 := hskipped
  rw [sequence_locks_from, if_pos hdisabled]
  cases (sequence_locks_from mtp_at locks rest : Except (Failure S) _) <;> rfl

theorem sequence_locks_from_count (hcounted : Counted input) (hfits : SumsFit mtp_at input coin_height) :
    (sequence_locks_from mtp_at locks ((input, coin_height) :: rest) : Except (Failure S) _) =
      (sequence_locks_from mtp_at (locks_after mtp_at locks input coin_height) rest).map
        fun result => (result.1, coin_height :: result.2) := by
  have henabled : ¬ input.sequence &&& SEQUENCE_LOCKTIME_DISABLE_FLAG ≠ 0 := not_not.mpr hcounted
  rw [sequence_locks_from, if_neg henabled]
  unfold SumsFit at hfits
  unfold locks_after
  by_cases hblocks : InBlocks input
  · rw [if_pos hblocks] at hfits
    obtain ⟨hsum, hheight⟩ := hfits
    unfold lock_value at hsum hheight
    have hkind : ¬ input.sequence &&& SEQUENCE_LOCKTIME_TYPE_FLAG ≠ 0 := not_not.mpr hblocks
    rw [if_neg hkind, if_pos hblocks]
    dsimp only
    rw [checked, if_pos hsum]
    dsimp only [bind, Except.bind]
    rw [checked, if_pos hheight]
    dsimp only
    unfold lock_value
    cases (sequence_locks_from mtp_at _ rest : Except (Failure S) _) <;> rfl
  · rw [if_neg hblocks] at hfits
    obtain ⟨hbefore, hsum, htime⟩ := hfits
    unfold lock_value at hsum htime
    have hkind : input.sequence &&& SEQUENCE_LOCKTIME_TYPE_FLAG ≠ 0 := hblocks
    rw [if_pos hkind, if_neg hblocks, checked, if_pos hbefore]
    dsimp only [bind, Except.bind]
    rw [shift_granularity, checked, if_pos hsum]
    dsimp only
    rw [checked, if_pos htime]
    dsimp only
    unfold lock_value
    cases (sequence_locks_from mtp_at _ rest : Except (Failure S) _) <;> rfl

theorem sequence_locks_from_overflow (hcounted : Counted input) (hfits : ¬ SumsFit mtp_at input coin_height)
    (result : SequenceLockPair × List Int) :
    (sequence_locks_from mtp_at locks ((input, coin_height) :: rest) : Except (Failure S) _) ≠ .ok result := by
  intro hresult
  have henabled : ¬ input.sequence &&& SEQUENCE_LOCKTIME_DISABLE_FLAG ≠ 0 := not_not.mpr hcounted
  rw [sequence_locks_from, if_neg henabled] at hresult
  refine hfits ?_
  unfold SumsFit lock_value
  by_cases hblocks : InBlocks input
  · have hkind : ¬ input.sequence &&& SEQUENCE_LOCKTIME_TYPE_FLAG ≠ 0 := not_not.mpr hblocks
    rw [if_neg hkind] at hresult
    obtain ⟨sum, hsum, hresult⟩ := bind_eq_ok_iff.mp hresult
    obtain ⟨rfl, hsum_fits⟩ := checked_eq_ok.mp hsum
    obtain ⟨height, hheight, -⟩ := bind_eq_ok_iff.mp hresult
    rw [if_pos hblocks]
    exact ⟨hsum_fits, (checked_eq_ok.mp hheight).2⟩
  · have hkind : input.sequence &&& SEQUENCE_LOCKTIME_TYPE_FLAG ≠ 0 := hblocks
    rw [if_pos hkind] at hresult
    obtain ⟨before, hbefore, hresult⟩ := bind_eq_ok_iff.mp hresult
    obtain ⟨rfl, hbefore_fits⟩ := checked_eq_ok.mp hbefore
    obtain ⟨sum, hsum, hresult⟩ := bind_eq_ok_iff.mp hresult
    obtain ⟨rfl, hsum_fits⟩ := checked_eq_ok.mp hsum
    obtain ⟨time, htime, -⟩ := bind_eq_ok_iff.mp hresult
    have htime_fits := (checked_eq_ok.mp htime).2
    rw [shift_granularity] at hsum_fits htime_fits
    rw [if_neg hblocks]
    exact ⟨hbefore_fits, hsum_fits, htime_fits⟩

/-- Over all inputs: the loop returns where all sums fit, and its limits are below those of a
    block where every input that counts satisfies its lock time. -/
theorem sequence_locks_from_iff {block_height prev_block_mtp : Int} {inputs : List (TxIn × Int)} :
    ∀ {locks : SequenceLockPair},
      ((∃ result, (sequence_locks_from mtp_at locks inputs : Except (Failure S) _) = .ok result) ↔
        ∀ entry ∈ inputs, Counted entry.1 → SumsFit mtp_at entry.1 entry.2) ∧
      ∀ after heights, (sequence_locks_from mtp_at locks inputs : Except (Failure S) _) = .ok (after, heights) →
        (after.height < block_height ∧ after.time < prev_block_mtp ↔
          (locks.height < block_height ∧ locks.time < prev_block_mtp) ∧
            ∀ entry ∈ inputs, Counted entry.1 → LockSatisfied mtp_at block_height prev_block_mtp entry.1 entry.2) := by
  induction inputs with
  | nil =>
    intro locks
    refine ⟨iff_of_true ⟨_, rfl⟩ (fun _ hmem => nomatch hmem), ?_⟩
    intro after heights hlocks
    cases hlocks
    exact (and_iff_left fun _ hmem => nomatch hmem).symm
  | cons entry rest ih =>
    obtain ⟨input, coin_height⟩ := entry
    intro locks
    rw [List.forall_mem_cons, List.forall_mem_cons]
    by_cases hcounted : Counted input
    · by_cases hfits : SumsFit mtp_at input coin_height
      · obtain ⟨hreturns, hexact⟩ := @ih (locks_after mtp_at locks input coin_height)
        rw [sequence_locks_from_count hcounted hfits]
        constructor
        · rw [exists_map_eq_ok, hreturns]
          exact (and_iff_right fun _ => hfits).symm
        · intro after heights hlocks
          obtain ⟨⟨after, rest_heights⟩, hrest, heq⟩ := map_eq_ok_iff.mp hlocks
          cases heq
          rw [hexact _ _ hrest, locks_after_lt, and_assoc, forall_prop_of_true hcounted]
      · refine ⟨iff_of_false ?_ fun hall => hfits (hall.1 hcounted), ?_⟩
        · rintro ⟨result, hresult⟩
          exact sequence_locks_from_overflow hcounted hfits result hresult
        · exact fun after heights hlocks => absurd hlocks (sequence_locks_from_overflow hcounted hfits _)
    · obtain ⟨hreturns, hexact⟩ := @ih locks
      rw [sequence_locks_from_skip hcounted]
      constructor
      · rw [exists_map_eq_ok, hreturns]
        exact (and_iff_right fun h => absurd h hcounted).symm
      · intro after heights hlocks
        obtain ⟨⟨after, rest_heights⟩, hrest, heq⟩ := map_eq_ok_iff.mp hlocks
        cases heq
        rw [hexact _ _ hrest, and_iff_right fun h => absurd h hcounted]

/-- The transaction and the flags ask for relative lock times. -/
def EnforcesBip68 (tx : Transaction) (flags : Int) : Prop := 2 ≤ tx.version ∧ flags % 2 ≠ 0

/-- The limits of a transaction are those of its inputs: they let a block have it where every
    input that counts satisfies its own lock time. They are computed unless a sum overflows. -/
theorem evaluate_sequence_locks_iff (S : Type) (tx : Transaction) (flags : Int) (prev_heights : List Int)
    (mtp_at : Int → Int) (block_height prev_block_mtp : Int) (hheights : prev_heights.length = tx.vin.length)
    (hheight : 0 ≤ block_height) (hmtp : 0 ≤ prev_block_mtp) :
    (∀ locks heights,
      (calculate_sequence_locks tx flags prev_heights mtp_at : Except (Failure S) _) = .ok (locks, heights) →
        (evaluate_sequence_locks block_height prev_block_mtp locks = true ↔ (EnforcesBip68 tx flags →
          ∀ entry ∈ tx.vin.zip prev_heights, Counted entry.1 →
            LockSatisfied mtp_at block_height prev_block_mtp entry.1 entry.2))) ∧
      ((∃ result, (calculate_sequence_locks tx flags prev_heights mtp_at : Except (Failure S) _) = .ok result) ↔
        (EnforcesBip68 tx flags → ∀ entry ∈ tx.vin.zip prev_heights, Counted entry.1 →
          SumsFit mtp_at entry.1 entry.2)) := by
  have hstart : (-1 : Int) < block_height ∧ (-1 : Int) < prev_block_mtp := by omega
  obtain ⟨hreturns, hexact⟩ :=
    @sequence_locks_from_iff S mtp_at block_height prev_block_mtp (tx.vin.zip prev_heights) ⟨-1, -1⟩
  have hevaluate : ∀ locks : SequenceLockPair, evaluate_sequence_locks block_height prev_block_mtp locks = true ↔
      locks.height < block_height ∧ locks.time < prev_block_mtp := by
    intro locks
    rw [evaluate_sequence_locks, Bool.and_eq_true, decide_eq_true_eq, decide_eq_true_eq]
  unfold calculate_sequence_locks
  rw [if_neg (not_not.mpr hheights)]
  by_cases henforced : EnforcesBip68 tx flags
  · have hcondition : ¬ ¬ (2 ≤ tx.version ∧ flags % 2 ≠ 0) := not_not.mpr henforced
    rw [if_neg hcondition, forall_prop_of_true henforced, forall_prop_of_true henforced]
    refine ⟨fun locks heights hlocks => ?_, hreturns⟩
    rw [hevaluate, hexact _ _ hlocks, and_iff_right hstart]
  · have hcondition : ¬ (2 ≤ tx.version ∧ flags % 2 ≠ 0) := henforced
    rw [if_pos hcondition]
    refine ⟨fun locks heights hlocks => ?_, iff_of_true ⟨_, rfl⟩ fun h => absurd h henforced⟩
    cases hlocks
    exact iff_of_true ((hevaluate _).mpr hstart) fun h => absurd h henforced

/-- An input with a lock of ten blocks on a coin at height five, in the block at height fifteen. -/
def ten_blocks_later : Transaction := .new (fun _ => 0) 2 [⟨.null, .new, 10, .new⟩] [] 0

theorem evaluate_sequence_locks_iff_ten_blocks :
    ∃ locks heights, (calculate_sequence_locks ten_blocks_later 1 [5] (fun _ => 0) : Except (Failure Unit) _) =
        .ok (locks, heights) ∧ evaluate_sequence_locks 15 0 locks = true := by
  obtain ⟨hexact, hreturns⟩ := evaluate_sequence_locks_iff Unit ten_blocks_later 1 [5] (fun _ => 0) 15 0 rfl (by decide)
    (by decide)
  refine ⟨⟨14, -1⟩, [5], by decide, (hexact ⟨14, -1⟩ [5] (by decide)).mpr fun _ entry hmem _ => ?_⟩
  obtain rfl := List.mem_singleton.mp hmem
  exact (if_pos rfl).mpr (by decide)

end qubitcoin.validation
