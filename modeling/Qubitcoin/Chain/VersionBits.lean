import Mathlib.Data.List.AList
import Qubitcoin.Chain.Ancestor
import Qubitcoin.Lib.Median

/-! `qubitcoin-common/versionbits.rs`: the states of a soft-fork deployment, with a
    cache of one state for each signalling period. -/

open qubitcoin.chain parentTree

namespace qubitcoin.versionbits

def VERSIONBITS_TOP_BITS : Int32 := 0x20000000
def VERSIONBITS_TOP_MASK : Int32 := (0xE0000000 : UInt32).toInt32

/-- One rule change, as the parameters of a network give it. -/
structure Bip9Deployment where
  bit : Int32
  start_time : Int
  timeout : Int
  min_activation_height : Int
  period : UInt32
  threshold : UInt32
  deriving DecidableEq, Repr

def Bip9Deployment.NO_TIMEOUT : Int := 2 ^ 63 - 1
def Bip9Deployment.ALWAYS_ACTIVE : Int := -1
def Bip9Deployment.NEVER_ACTIVE : Int := -2

def Bip9Deployment.testdummy (start_time : Int) (threshold period : UInt32) : Bip9Deployment :=
  { bit := 28, start_time, timeout := NO_TIMEOUT, min_activation_height := 0, period, threshold }

inductive ThresholdState where
  | Defined | Started | LockedIn | Active | Failed
  deriving DecidableEq, Repr

/-- States by the parent of the block evaluated; `none` stands for the parent of
    the genesis block. -/
abbrev ThresholdConditionCache := AList fun _ : Option Nat => ThresholdState

/-- The hooks of the threshold logic. -/
structure ThresholdConditionChecker where
  condition : List BlockIndex → Nat → Bool
  begin_time : Int
  end_time : Int
  min_activation_height : Int
  period : Int
  threshold : Int

/-- Does a block version signal for a deployment? -/
def condition_version (dep : Bip9Deployment) (n_version : Int32) : Bool :=
  n_version &&& VERSIONBITS_TOP_MASK == VERSIONBITS_TOP_BITS &&
    n_version &&& ((1 : UInt32) <<< dep.bit.toUInt32).toInt32 != 0

def VersionBitsConditionChecker (dep : Bip9Deployment) : ThresholdConditionChecker where
  condition arena idx := condition_version dep (arena.getD idx .new).version
  begin_time := dep.start_time
  end_time := dep.timeout
  min_activation_height := dep.min_activation_height
  period := as_i32 dep.period
  threshold := as_i32 dep.threshold

section

variable (checker : ThresholdConditionChecker) (arena : List BlockIndex)

/-- How many of that many blocks up a branch signal. -/
def count_signalling : Nat → Option Nat → Int
  | 0, _ => 0
  | _ + 1, none => 0
  | n + 1, some ci =>
    (if checker.condition arena ci then 1 else 0) + count_signalling n (arena.getD ci .new).prev

/-- The state of the period after a block, from that of the period it ends. -/
def transition (state : ThresholdState) (p : Nat) : ThresholdState :=
  match state with
  | .Defined => if checker.begin_time ≤ compute_mtp arena p then .Started else .Defined
  | .Started =>
    if checker.threshold ≤ count_signalling checker arena checker.period.toNat (some p) then .LockedIn
    else if checker.end_time ≤ compute_mtp arena p then .Failed
    else .Started
  | .LockedIn =>
    if checker.min_activation_height ≤ (arena.getD p .new).height + 1 then .Active else .LockedIn
  | .Failed => .Failed
  | .Active => .Active

/-- The backward loop of `get_state_for`: the block whose state is known, and the
    blocks to compute from there on, the first one in front. Without fuel the loop
    is taken not to end. -/
def walk_back :
    Nat → Option Nat → List Nat → ThresholdConditionCache → Option (Option Nat × List Nat × ThresholdConditionCache)
  | 0, _, _, _ => none
  | fuel + 1, prev, to_compute, cache =>
    if prev ∈ cache then some (prev, to_compute, cache)
    else
      match prev with
      | none => some (none, to_compute, cache.insert none .Defined)
      | some p =>
        if compute_mtp arena p < checker.begin_time then
          some (some p, to_compute, cache.insert (some p) .Defined)
        else
          let height := (arena.getD p .new).height
          walk_back fuel (get_ancestor arena p (height - checker.period)) (p :: to_compute) cache

/-- The forward loop of `get_state_for`. -/
def walk_forward : List Nat → ThresholdState → ThresholdConditionCache → ThresholdState × ThresholdConditionCache
  | [], state, cache => (state, cache)
  | p :: to_compute, state, cache =>
    let state := transition checker arena state p
    walk_forward to_compute state (cache.insert (some p) state)

/-- The last block of the period before the one of the next block. An index outside
    the arena or a period of no blocks stops the program. -/
def period_parent : Option Nat → Option (Option Nat)
  | none => some none
  | some p =>
    match arena[p]? with
    | none => none
    | some block =>
      if checker.period = 0 then none
      else some (get_ancestor arena p (block.height - (block.height + 1).tmod checker.period))

/-- The state of the block whose parent is given, and the cache afterwards; `none`
    where the program stops or does not end. -/
def get_state_for (prev : Option Nat) (cache : ThresholdConditionCache) :
    Option (ThresholdState × ThresholdConditionCache) :=
  if checker.begin_time = Bip9Deployment.ALWAYS_ACTIVE then some (.Active, cache)
  else if checker.begin_time = Bip9Deployment.NEVER_ACTIVE then some (.Failed, cache)
  else do
    let prev ← period_parent checker arena prev
    let (prev, to_compute, cache) ← walk_back checker arena (arena.length + 1) prev [] cache
    let state ← cache.lookup prev
    return walk_forward checker arena to_compute state cache

def filled_by (calls : List (Option Nat)) (cache : ThresholdConditionCache) : Option ThresholdConditionCache :=
  calls.foldlM (fun cache prev => (get_state_for checker arena prev cache).map Prod.snd) cache

/-- The block at a height of the branch that ends in a block. -/
def block_at (p height : Nat) : Option Nat := ancestor (parent_of arena) (height_of arena p - height) p

/-- A block version signals by BIP 9: its top bits are 001, and the bit of the deployment is set. -/
def SignalsFor (bit : Int32) (version : Int32) : Prop :=
  version.toBitVec.extractLsb' 29 3 = 1#3 ∧ version.toBitVec.getLsbD bit.toBitVec.toNat = true

/-- The highest blocks of a branch up to a height, from there down. -/
def last_blocks (p height count : Nat) : List Nat :=
  (List.range (min count (height + 1))).filterMap fun i => block_at arena p (height - i)

/-- The times of the block of a branch at a height and of the ten before it. -/
def past_times (p height : Nat) : List Int :=
  (last_blocks arena p height 11).map fun idx => (arena.getD idx .new).get_block_time

/-- The median of the past times has come to a time: no more than half of them are earlier. -/
def MedianReaches (p height : Nat) (time : Int) : Prop :=
  (past_times arena p height).countP (fun past => decide (past < time)) ≤ (past_times arena p height).length / 2

/-- The height of the last block of a period. -/
def period_end (k : Nat) : Nat := (k + 1) * checker.period.toNat - 1

/-- How many blocks of a period of a branch signal. -/
def signal_count (p k : Nat) : Nat :=
  (last_blocks arena p (period_end checker k) checker.period.toNat).countP (checker.condition arena)

/-- The states of the periods of the branch that ends in a block, as BIP 9 lays them down: each follows from the
    one before, by what the blocks of the period before say. -/
inductive Bip9 (p : Nat) : Nat → ThresholdState → Prop where
  | genesis : Bip9 p 0 .Defined
  | waits {k : Nat} : Bip9 p k .Defined → ¬ MedianReaches arena p (period_end checker k) checker.begin_time →
      Bip9 p (k + 1) .Defined
  | starts {k : Nat} : Bip9 p k .Defined → MedianReaches arena p (period_end checker k) checker.begin_time →
      Bip9 p (k + 1) .Started
  | continues {k : Nat} : Bip9 p k .Started → signal_count checker arena p k < checker.threshold →
      ¬ MedianReaches arena p (period_end checker k) checker.end_time → Bip9 p (k + 1) .Started
  | fails {k : Nat} : Bip9 p k .Started → signal_count checker arena p k < checker.threshold →
      MedianReaches arena p (period_end checker k) checker.end_time → Bip9 p (k + 1) .Failed
  | locks_in {k : Nat} : Bip9 p k .Started → checker.threshold ≤ signal_count checker arena p k → Bip9 p (k + 1) .LockedIn
  | delays {k : Nat} : Bip9 p k .LockedIn → period_end checker k + 1 < checker.min_activation_height →
      Bip9 p (k + 1) .LockedIn
  | activates {k : Nat} : Bip9 p k .LockedIn → checker.min_activation_height ≤ period_end checker k + 1 →
      Bip9 p (k + 1) .Active
  | stays_active {k : Nat} : Bip9 p k .Active → Bip9 p (k + 1) .Active
  | stays_failed {k : Nat} : Bip9 p k .Failed → Bip9 p (k + 1) .Failed

/-- The state of the block whose parent is given: the deployment may be active always or never, the genesis
    block is `Defined`, and each other block has the state of its period. -/
def Bip9State (prev : Option Nat) (state : ThresholdState) : Prop :=
  if checker.begin_time = Bip9Deployment.ALWAYS_ACTIVE then state = .Active
  else if checker.begin_time = Bip9Deployment.NEVER_ACTIVE then state = .Failed
  else
    match prev with
    | none => state = .Defined
    | some p => Bip9 checker arena p ((height_of arena p + 1) / checker.period.toNat) state

/-- The states of the periods of a branch, by the steps of the loop at their last blocks. -/
def period_state (p : Nat) : Nat → ThresholdState
  | 0 => .Defined
  | k + 1 =>
    match block_at arena p ((k + 1) * checker.period.toNat - 1) with
    | none => period_state p k
    | some last => transition checker arena (period_state p k) last

/-- The state of the block whose parent is given, by the steps of the loop without a cache. -/
def bip9_state (prev : Option Nat) : ThresholdState :=
  if checker.begin_time = Bip9Deployment.ALWAYS_ACTIVE then .Active
  else if checker.begin_time = Bip9Deployment.NEVER_ACTIVE then .Failed
  else
    match prev with
    | none => .Defined
    | some p => period_state checker arena p ((height_of arena p + 1) / checker.period.toNat)

end

end qubitcoin.versionbits

/-! The cached state of a deployment is the state that the recursion over the
    periods gives, on every branch and for every cache filled by earlier calls. -/

open qubitcoin.chain parentTree

namespace qubitcoin.chain

/-- Every block is later than the median time past of its parent. -/
def Timely (arena : List BlockIndex) : Prop :=
  ∀ {idx prev_idx : Nat} {index : BlockIndex}, arena[idx]? = some index → index.prev = some prev_idx →
    compute_mtp arena prev_idx < index.get_block_time

theorem length_collect_ancestors_from (arena : List BlockIndex) {n : Nat} :
    ∀ {prev : Option Nat}, (collect_ancestors_from arena n prev).length ≤ n := by
  induction n with
  | zero => exact fun {_} => Nat.le_refl 0
  | succ n ih =>
    intro prev
    cases prev with
    | none => exact Nat.zero_le _
    | some idx =>
      rw [collect_ancestors_from]
      split
      · exact Nat.zero_le _
      · exact Nat.succ_le_succ ih

theorem take_collect_ancestors_from (arena : List BlockIndex) {n : Nat} :
    ∀ {prev : Option Nat}, collect_ancestors_from arena n prev =
      (collect_ancestors_from arena (n + 1) prev).take n := by
  induction n with
  | zero => exact fun {_} => rfl
  | succ n ih =>
    intro prev
    cases prev with
    | none => rfl
    | some idx =>
      rw [collect_ancestors_from, collect_ancestors_from]
      split
      · rfl
      · rw [ih, List.take_succ_cons]

theorem compute_mtp_eq (arena : List BlockIndex) (idx : Nat) :
    compute_mtp arena idx =
      rank.nth ((collect_mtp_ancestors arena idx).map BlockIndex.get_block_time)
        (((collect_mtp_ancestors arena idx).map BlockIndex.get_block_time).length / 2) 0 := by
  have hlength : (collect_mtp_ancestors arena idx).length ≤ MEDIAN_TIME_SPAN := length_collect_ancestors_from arena
  unfold compute_mtp BlockIndex.get_median_time_past
  rw [List.take_of_length_le hlength]
  dsimp only
  rw [List.length_mergeSort]
  rfl

theorem compute_mtp_parent_le {arena : List BlockIndex} (htimely : Timely arena) {idx prev_idx : Nat}
    {index prev : BlockIndex} (hat : arena[idx]? = some index) (hparent : index.prev = some prev_idx)
    (hprev : arena[prev_idx]? = some prev) : compute_mtp arena prev_idx ≤ compute_mtp arena idx := by
  have hlater := htimely hat hparent
  have hchild : collect_mtp_ancestors arena idx =
      index :: (collect_mtp_ancestors arena prev_idx).take 10 := by
    unfold collect_mtp_ancestors MEDIAN_TIME_SPAN
    rw [collect_ancestors_from, hat, ← take_collect_ancestors_from, ← hparent]
  have hne : collect_mtp_ancestors arena prev_idx ≠ [] := by
    unfold collect_mtp_ancestors MEDIAN_TIME_SPAN
    rw [collect_ancestors_from, hprev]
    exact List.cons_ne_nil _ _
  have hlength : (collect_mtp_ancestors arena prev_idx).length ≤ 11 := length_collect_ancestors_from arena
  rw [compute_mtp_eq] at hlater
  rw [compute_mtp_eq, compute_mtp_eq arena idx, hchild, List.map_cons]
  apply rank.median_le_cons
  · exact (List.take_sublist _ _).map _
  · exact fun hnil => hne (List.map_eq_nil_iff.mp hnil)
  · rw [List.length_map, List.length_map, List.length_take]
    omega
  · exact hlater

theorem Tree.compute_mtp_ancestor_le {arena : List BlockIndex} (htree : Tree arena) (htimely : Timely arena) {n : Nat} :
    ∀ {idx found : Nat}, ancestor (parent_of arena) n idx = some found →
      compute_mtp arena found ≤ compute_mtp arena idx := by
  induction n with
  | zero =>
    intro idx found hfound
    cases hfound
    exact le_rfl
  | succ n ih =>
    intro idx found hfound
    rw [ancestor] at hfound
    obtain ⟨prev_idx, hparent, hfound⟩ := Option.bind_eq_some_iff.mp hfound
    obtain ⟨hlt, hlength⟩ := htree.parent_lt hparent
    have hat := List.getElem?_eq_getElem hlength
    have hprev := List.getElem?_eq_getElem (Nat.lt_trans hlt hlength)
    rw [parent_of, getD_of_getElem? hat] at hparent
    exact le_trans (ih hfound) (compute_mtp_parent_le htimely hat hparent hprev)

end qubitcoin.chain

namespace qubitcoin.versionbits

variable {checker : ThresholdConditionChecker} {arena : List BlockIndex}

theorem bip9_state_always (halways : checker.begin_time = Bip9Deployment.ALWAYS_ACTIVE) (prev : Option Nat) :
    bip9_state checker arena prev = .Active := by
  unfold bip9_state
  rw [if_pos halways]

theorem bip9_state_never (hnever : checker.begin_time = Bip9Deployment.NEVER_ACTIVE) (prev : Option Nat) :
    bip9_state checker arena prev = .Failed := by
  unfold bip9_state
  rw [hnever, if_neg (by decide), if_pos rfl]

theorem block_at_of_ancestor (htree : Tree arena) {i p q height : Nat}
    (hancestor : ancestor (parent_of arena) i p = some q) (hdeep : i ≤ height_of arena p)
    (hle : height ≤ height_of arena q) : block_at arena p height = block_at arena q height := by
  have hheight := htree.leveled.height_ancestor hdeep hancestor
  rw [block_at, block_at, show height_of arena p - height = i + (height_of arena q - height) by omega, ancestor_add,
    hancestor]
  rfl

theorem period_state_of_ancestor (htree : Tree arena) {i p q k : Nat}
    (hancestor : ancestor (parent_of arena) i p = some q) (hdeep : i ≤ height_of arena p)
    (hle : k * checker.period.toNat ≤ height_of arena q + 1) :
    period_state checker arena p k = period_state checker arena q k := by
  induction k with
  | zero => rfl
  | succ k ih =>
    have hless : k * checker.period.toNat ≤ (k + 1) * checker.period.toNat :=
      Nat.mul_le_mul_right _ (Nat.le_succ k)
    rw [period_state, period_state, block_at_of_ancestor htree hancestor hdeep (by omega), ih (by omega)]

def ThresholdState.terminal : ThresholdState → Prop
  | .Active | .Failed => True
  | _ => False

theorem transition_terminal {state : ThresholdState} (hterminal : state.terminal) (p : Nat) :
    transition checker arena state p = state := by
  cases state with
  | Active | Failed => rfl
  | Defined | Started | LockedIn => cases hterminal

theorem period_state_terminal {p k : Nat} (hterminal : (period_state checker arena p k).terminal) (j : Nat) :
    period_state checker arena p (k + j) = period_state checker arena p k := by
  induction j with
  | zero => rfl
  | succ j ih =>
    rw [← Nat.add_assoc, period_state]
    split
    · exact ih
    · rw [ih, transition_terminal hterminal]

theorem period_state_of_early (htree : Tree arena) (htimely : Timely arena) {p : Nat}
    (hearly : compute_mtp arena p < checker.begin_time) (k : Nat) : period_state checker arena p k = .Defined := by
  induction k with
  | zero => rfl
  | succ k ih =>
    rw [period_state, ih]
    split
    · rfl
    · next last hlast =>
      have hle := htree.compute_mtp_ancestor_le htimely hlast
      rw [transition, if_neg (by omega)]

theorem bip9_state_step (htree : Tree arena) (hperiod : 0 < checker.period)
    (hstart : checker.begin_time ≠ Bip9Deployment.ALWAYS_ACTIVE ∧ checker.begin_time ≠ Bip9Deployment.NEVER_ACTIVE)
    {p : Nat} (hlt : p < arena.length) (hlast : checker.period.toNat ∣ height_of arena p + 1) :
    bip9_state checker arena (some p) =
      transition checker arena (bip9_state checker arena
        (get_ancestor arena p ((arena.getD p .new).height - checker.period))) p := by
  have hat := List.getElem?_eq_getElem hlt
  have hheight := htree.height_eq hat
  rw [← getD_of_getElem? hat] at hheight
  obtain ⟨n, hn⟩ := Int.eq_ofNat_of_zero_le hperiod.le
  obtain ⟨k, hk⟩ := hlast
  rw [hn, Int.toNat_natCast] at hk
  have hpos : 0 < n := by omega
  cases k with
  | zero => omega
  | succ k =>
    have hsucc : n * (k + 1) = n * k + n := Nat.mul_succ n k
    have hself : block_at arena p ((k + 1) * n - 1) = some p := by
      rw [block_at, Nat.mul_comm, ← hk, Nat.add_sub_cancel, Nat.sub_self]
      rfl
    unfold bip9_state
    rw [if_neg hstart.1, if_neg hstart.2, if_neg hstart.1, if_neg hstart.2, hheight, hn, Int.toNat_natCast]
    dsimp only
    rw [hk, Nat.mul_div_cancel_left _ hpos, period_state, hn, Int.toNat_natCast, hself]
    rw [htree.get_ancestor_eq hlt]
    cases k with
    | zero =>
      rw [if_neg (by omega)]
      rfl
    | succ k =>
      have hless : n ≤ n * (k + 1) := Nat.le_mul_of_pos_right n (Nat.succ_pos k)
      rw [if_pos (by omega), show height_of arena p - ((height_of arena p : Int) - n).toNat = n by omega]
      obtain ⟨q, hq, hlow⟩ := htree.leveled.ancestor_some (show n ≤ height_of arena p by omega)
      rw [hq]
      dsimp only
      rw [show height_of arena q + 1 = n * (k + 1) by omega, Nat.mul_div_cancel_left _ hpos]
      congr 1
      apply period_state_of_ancestor htree hq (by omega)
      rw [hn, Int.toNat_natCast, Nat.mul_comm]
      omega

theorem and_top_mask (x : BitVec 32) : x &&& 0xE0000000#32 = 0x20000000#32 ↔ x.extractLsb' 29 3 = 1#3 := by
  constructor
  · intro h
    refine BitVec.eq_of_getLsbD_eq fun i hi => ?_
    have hbit := congrArg (fun y => y.getLsbD (29 + i)) h
    simp only [BitVec.getLsbD_and] at hbit
    interval_cases i <;> simpa using hbit
  · intro h
    refine BitVec.eq_of_getLsbD_eq fun i hi => ?_
    rw [BitVec.getLsbD_and]
    by_cases hlow : i < 29
    · have hmask : (0xE0000000#32).getLsbD i = false ∧ (0x20000000#32).getLsbD i = false := by
        interval_cases i <;> decide
      rw [hmask.1, hmask.2, Bool.and_false]
    · have hbit := congrArg (fun y => y.getLsbD (i - 29)) h
      simp only [BitVec.getLsbD_extractLsb'] at hbit
      interval_cases i <;> simpa using hbit

theorem condition_version_iff {dep : Bip9Deployment} (hlow : 0 ≤ dep.bit) (hhigh : dep.bit < 32) (n_version : Int32) :
    condition_version dep n_version = true ↔ SignalsFor dep.bit n_version := by
  have hbit : dep.bit.toBitVec.toNat < 32 := by
    have hint : dep.bit.toBitVec.toInt < 32 := Int32.lt_iff_toInt_lt.mp hhigh
    have hpos : 0 ≤ dep.bit.toBitVec.toInt := Int32.le_iff_toInt_le.mp hlow
    rw [BitVec.toInt_eq_toNat_cond] at hint hpos
    split at hint <;> omega
  have hshift : (((1 : UInt32) <<< dep.bit.toUInt32).toInt32).toBitVec = BitVec.twoPow 32 dep.bit.toBitVec.toNat := by
    change ((1 : UInt32) <<< dep.bit.toUInt32).toBitVec = _
    rw [UInt32.toBitVec_shiftLeft, BitVec.twoPow_eq, BitVec.shiftLeft_eq', BitVec.toNat_umod]
    congr 1
    exact Nat.mod_eq_of_lt hbit
  unfold condition_version SignalsFor
  rw [Bool.and_eq_true, beq_iff_eq, bne_iff_ne, ← Int32.toBitVec_inj]
  refine and_congr (and_top_mask n_version.toBitVec) ?_
  rw [ne_eq, ← Int32.toBitVec_inj, Int32.toBitVec_and, hshift, BitVec.and_twoPow]
  cases n_version.toBitVec.getLsbD dep.bit.toBitVec.toNat with
  | true =>
    have hne : BitVec.twoPow 32 dep.bit.toBitVec.toNat ≠ 0#32 := by
      intro hzero
      have hget := congrArg (fun y => y.getLsbD dep.bit.toBitVec.toNat) hzero
      simp [hbit] at hget
    simpa using hne
  | false => simp

theorem last_blocks_succ (htree : Tree arena) (p n : Nat) :
    last_blocks arena p (height_of arena p) (n + 1) =
      p :: match parent_of arena p with
        | none => []
        | some q => last_blocks arena q (height_of arena q) n := by
  have hself : block_at arena p (height_of arena p) = some p := by
    rw [block_at, Nat.sub_self]
    rfl
  unfold last_blocks
  cases hparent : parent_of arena p with
  | none =>
    have hroot := htree.leveled.root p hparent
    rw [hroot, show min (n + 1) (0 + 1) = 1 by omega, List.range_one, List.filterMap_cons]
    rw [hroot] at hself
    rw [hself]
    rfl
  | some q =>
    have hheight := htree.leveled.child p q hparent
    rw [hheight] at hself ⊢
    rw [show min (n + 1) (height_of arena q + 1 + 1) = min n (height_of arena q + 1) + 1 by omega,
      List.range_succ_eq_map, List.filterMap_cons, Nat.sub_zero, hself, List.filterMap_map]
    dsimp only
    refine congrArg (p :: ·) (List.filterMap_congr fun i hi => ?_)
    have hlow := List.mem_range.mp hi
    rw [Function.comp_apply, block_at, block_at, hheight,
      show height_of arena q + 1 - (height_of arena q + 1 - i.succ) = (height_of arena q - (height_of arena q - i)) + 1 by
        omega, ancestor, hparent]
    rfl

theorem last_blocks_at (htree : Tree arena) {p q height : Nat} (hle : height ≤ height_of arena p)
    (hat : block_at arena p height = some q) (n : Nat) :
    last_blocks arena p height n = last_blocks arena q (height_of arena q) n := by
  have hdeep : height_of arena p - height ≤ height_of arena p := Nat.sub_le _ _
  have hheight := htree.leveled.height_ancestor hdeep hat
  rw [Nat.sub_sub_self hle] at hheight
  unfold last_blocks
  rw [hheight]
  refine List.filterMap_congr fun i _ => block_at_of_ancestor htree hat hdeep ?_
  omega

theorem count_signalling_eq (htree : Tree arena) (n p : Nat) :
    count_signalling checker arena n (some p) =
      (last_blocks arena p (height_of arena p) n).countP (checker.condition arena) := by
  induction n generalizing p with
  | zero => rfl
  | succ n ih =>
    rw [last_blocks_succ htree, count_signalling, List.countP_cons]
    change _ + count_signalling checker arena n (parent_of arena p) = _
    cases parent_of arena p with
    | none =>
      cases n <;> cases checker.condition arena p <;> rfl
    | some q =>
      rw [ih]
      split <;> push_cast <;> omega

theorem collect_ancestors_from_eq (htree : Tree arena) (n : Nat) {p : Nat} (hlt : p < arena.length) :
    collect_ancestors_from arena n (some p) =
      (last_blocks arena p (height_of arena p) n).map fun idx => arena.getD idx .new := by
  induction n generalizing p with
  | zero => rfl
  | succ n ih =>
    have hat := List.getElem?_eq_getElem hlt
    rw [last_blocks_succ htree, collect_ancestors_from, hat, List.map_cons, getD_of_getElem? hat]
    have hprev : arena[p].prev = parent_of arena p := by rw [parent_of, getD_of_getElem? hat]
    dsimp only
    rw [hprev]
    cases hparent : parent_of arena p with
    | none => cases n <;> rfl
    | some q =>
      obtain ⟨hless, _⟩ := htree.parent_lt hparent
      rw [ih (hless.trans hlt)]

theorem le_compute_mtp_iff (htree : Tree arena) {p : Nat} (hlt : p < arena.length) (time : Int) :
    time ≤ compute_mtp arena p ↔ MedianReaches arena p (height_of arena p) time := by
  have htimes : (collect_mtp_ancestors arena p).map BlockIndex.get_block_time = past_times arena p (height_of arena p) := by
    rw [collect_mtp_ancestors, collect_ancestors_from_eq htree _ hlt, List.map_map]
    rfl
  have hpos : past_times arena p (height_of arena p) ≠ [] := by
    rw [past_times, last_blocks_succ htree]
    exact List.cons_ne_nil _ _
  rw [compute_mtp_eq, htimes]
  exact rank.le_nth_iff (Nat.div_lt_self (List.length_pos_iff.mpr hpos) (by decide)) 0

theorem period_last (htree : Tree arena) (hperiod : 0 < checker.period) {p k : Nat} (hlt : p < arena.length)
    (hle : (k + 1) * checker.period.toNat ≤ height_of arena p + 1) :
    ∃ last, period_state checker arena p (k + 1) = transition checker arena (period_state checker arena p k) last ∧
      (∀ time, time ≤ compute_mtp arena last ↔ MedianReaches arena p (period_end checker k) time) ∧
      count_signalling checker arena checker.period.toNat (some last) = signal_count checker arena p k ∧
      (arena.getD last .new).height = period_end checker k := by
  have hpos : 0 < (k + 1) * checker.period.toNat := Nat.mul_pos (Nat.succ_pos k) (by omega)
  have hbelow : period_end checker k ≤ height_of arena p := by
    unfold period_end
    omega
  obtain ⟨last, hlast, hheight⟩ := htree.leveled.ancestor_some
    (show height_of arena p - period_end checker k ≤ height_of arena p from Nat.sub_le _ _)
  rw [Nat.sub_sub_self hbelow] at hheight
  have hlength : last < arena.length := (htree.ancestor_le hlast).trans_lt hlt
  have hblocks := last_blocks_at htree hbelow hlast
  refine ⟨last, ?_, fun time => ?_, ?_, ?_⟩
  · have hat : block_at arena p ((k + 1) * checker.period.toNat - 1) = some last := hlast
    rw [period_state, hat]
  · rw [le_compute_mtp_iff htree hlength]
    unfold MedianReaches past_times
    rw [hblocks]
  · rw [count_signalling_eq htree, signal_count, hblocks]
  · have hat := List.getElem?_eq_getElem hlength
    rw [getD_of_getElem? hat, htree.height_eq hat, hheight]

theorem period_state_bip9 (htree : Tree arena) (hperiod : 0 < checker.period) {p : Nat} (hlt : p < arena.length) {k : Nat}
    (hle : k * checker.period.toNat ≤ height_of arena p + 1) :
    Bip9 checker arena p k (period_state checker arena p k) := by
  induction k with
  | zero => exact .genesis
  | succ k ih =>
    have hstate := ih ((Nat.mul_le_mul_right _ (Nat.le_succ k)).trans hle)
    obtain ⟨last, hstep, hmedian, hcount, hheight⟩ := period_last htree hperiod hlt hle
    rw [hstep]
    cases hbefore : period_state checker arena p k with
    | Defined =>
      rw [hbefore] at hstate
      rw [transition]
      split
      · next hreaches => exact .starts hstate ((hmedian _).mp hreaches)
      · next hearly => exact .waits hstate fun hreaches => hearly ((hmedian _).mpr hreaches)
    | Started =>
      rw [hbefore] at hstate
      rw [transition, hcount]
      split
      · next hsignals => exact .locks_in hstate hsignals
      · next hfew =>
        split
        · next hreaches => exact .fails hstate (not_le.mp hfew) ((hmedian _).mp hreaches)
        · next hearly => exact .continues hstate (not_le.mp hfew) fun hreaches => hearly ((hmedian _).mpr hreaches)
    | LockedIn =>
      rw [hbefore] at hstate
      rw [transition, hheight]
      split
      · next hhigh => exact .activates hstate hhigh
      · next hlow => exact .delays hstate (not_le.mp hlow)
    | Active =>
      rw [hbefore] at hstate
      exact .stays_active hstate
    | Failed =>
      rw [hbefore] at hstate
      exact .stays_failed hstate

theorem Bip9.eq_period_state (htree : Tree arena) (hperiod : 0 < checker.period) {p k : Nat} {state : ThresholdState}
    (hlt : p < arena.length) (hstate : Bip9 checker arena p k state)
    (hle : k * checker.period.toNat ≤ height_of arena p + 1) : state = period_state checker arena p k := by
  induction hstate with
  | genesis => rfl
  | @waits k _ hearly ih =>
    obtain ⟨last, hstep, hmedian, _⟩ := period_last htree hperiod hlt hle
    rw [hstep, ← ih ((Nat.mul_le_mul_right _ (Nat.le_succ k)).trans hle), transition,
      if_neg fun hreaches => hearly ((hmedian _).mp hreaches)]
  | @starts k _ hreaches ih =>
    obtain ⟨last, hstep, hmedian, _⟩ := period_last htree hperiod hlt hle
    rw [hstep, ← ih ((Nat.mul_le_mul_right _ (Nat.le_succ k)).trans hle), transition, if_pos ((hmedian _).mpr hreaches)]
  | @continues k _ hfew hearly ih =>
    obtain ⟨last, hstep, hmedian, hcount, _⟩ := period_last htree hperiod hlt hle
    rw [hstep, ← ih ((Nat.mul_le_mul_right _ (Nat.le_succ k)).trans hle), transition, hcount, if_neg (not_le.mpr hfew),
      if_neg fun hreaches => hearly ((hmedian _).mp hreaches)]
  | @fails k _ hfew hreaches ih =>
    obtain ⟨last, hstep, hmedian, hcount, _⟩ := period_last htree hperiod hlt hle
    rw [hstep, ← ih ((Nat.mul_le_mul_right _ (Nat.le_succ k)).trans hle), transition, hcount, if_neg (not_le.mpr hfew),
      if_pos ((hmedian _).mpr hreaches)]
  | @locks_in k _ hsignals ih =>
    obtain ⟨last, hstep, _, hcount, _⟩ := period_last htree hperiod hlt hle
    rw [hstep, ← ih ((Nat.mul_le_mul_right _ (Nat.le_succ k)).trans hle), transition, hcount, if_pos hsignals]
  | @delays k _ hlow ih =>
    obtain ⟨last, hstep, _, _, hheight⟩ := period_last htree hperiod hlt hle
    rw [hstep, ← ih ((Nat.mul_le_mul_right _ (Nat.le_succ k)).trans hle), transition, hheight, if_neg (not_le.mpr hlow)]
  | @activates k _ hhigh ih =>
    obtain ⟨last, hstep, _, _, hheight⟩ := period_last htree hperiod hlt hle
    rw [hstep, ← ih ((Nat.mul_le_mul_right _ (Nat.le_succ k)).trans hle), transition, hheight, if_pos hhigh]
  | @stays_active k _ ih | @stays_failed k _ ih =>
    obtain ⟨last, hstep, _⟩ := period_last htree hperiod hlt hle
    rw [hstep, ← ih ((Nat.mul_le_mul_right _ (Nat.le_succ k)).trans hle), transition]

theorem bip9_state_iff (htree : Tree arena) (hperiod : 0 < checker.period) {prev : Option Nat}
    (hprev : ∀ p, prev = some p → p < arena.length) {state : ThresholdState} :
    Bip9State checker arena prev state ↔ state = bip9_state checker arena prev := by
  unfold Bip9State bip9_state
  split
  · rfl
  split
  · rfl
  cases prev with
  | none => rfl
  | some p =>
    have hle := Nat.div_mul_le_self (height_of arena p + 1) checker.period.toNat
    constructor
    · exact fun hstate => hstate.eq_period_state htree hperiod (hprev p rfl) hle
    · rintro rfl
      exact period_state_bip9 htree hperiod (hprev p rfl) hle

/-- Every state in the cache is that of the recursion. -/
def Faithful (checker : ThresholdConditionChecker) (arena : List BlockIndex) (cache : ThresholdConditionCache) : Prop :=
  ∀ key state, cache.lookup key = some state → state = bip9_state checker arena key

/-- A last block of a period in the arena, or the parent of the genesis block. -/
def Boundary (checker : ThresholdConditionChecker) (arena : List BlockIndex) (prev : Option Nat) : Prop :=
  ∀ p, prev = some p → p < arena.length ∧ checker.period.toNat ∣ height_of arena p + 1

/-- The blocks to compute lead from one boundary to another, a period at a time. -/
def Leads (checker : ThresholdConditionChecker) (arena : List BlockIndex) (target : Option Nat) :
    List Nat → Option Nat → Prop
  | [], prev => prev = target
  | p :: to_compute, prev =>
    Boundary checker arena (some p) ∧
    get_ancestor arena p ((arena.getD p .new).height - checker.period) = prev ∧
      Leads checker arena target to_compute (some p)

theorem Faithful.empty : Faithful checker arena ∅ := by
  intro key state hlookup
  rw [AList.lookup_empty] at hlookup
  cases hlookup

theorem Faithful.insert {cache : ThresholdConditionCache} (hcache : Faithful checker arena cache) {key : Option Nat}
    {state : ThresholdState} (hstate : state = bip9_state checker arena key) :
    Faithful checker arena (cache.insert key state) := by
  intro other found hlookup
  by_cases hsame : other = key
  · subst hsame
    rw [AList.lookup_insert] at hlookup
    cases hlookup
    exact hstate
  · rw [AList.lookup_insert_ne hsame] at hlookup
    exact hcache other found hlookup

section

variable (htree : Tree arena) (htimely : Timely arena) (hperiod : 0 < checker.period)
  (hstart : checker.begin_time ≠ Bip9Deployment.ALWAYS_ACTIVE ∧ checker.begin_time ≠ Bip9Deployment.NEVER_ACTIVE)
include htree hperiod

theorem boundary_before {p : Nat} (hboundary : Boundary checker arena (some p)) :
    Boundary checker arena (get_ancestor arena p ((arena.getD p .new).height - checker.period)) ∧
      ∀ q, get_ancestor arena p ((arena.getD p .new).height - checker.period) = some q → q < p := by
  obtain ⟨hlt, hlast⟩ := hboundary p rfl
  have hat := List.getElem?_eq_getElem hlt
  have hheight := htree.height_eq hat
  rw [← getD_of_getElem? hat] at hheight
  rw [hheight, htree.get_ancestor_eq hlt]
  split
  · next hrange =>
    obtain ⟨n, hn⟩ := Int.eq_ofNat_of_zero_le hperiod.le
    rw [show height_of arena p - ((height_of arena p : Int) - checker.period).toNat = n by omega]
    obtain ⟨q, hq, hlow⟩ := htree.leveled.ancestor_some (show n ≤ height_of arena p by omega)
    have hle := htree.ancestor_le hq
    have hne : q ≠ p := by
      rintro rfl
      omega
    rw [hq]
    refine ⟨?_, ?_⟩
    · rintro _ ⟨⟩
      refine ⟨by omega, ?_⟩
      rw [hn, Int.toNat_natCast] at hlast ⊢
      rw [show height_of arena q + 1 = (height_of arena p + 1) - n by omega]
      exact Nat.dvd_sub hlast (Nat.dvd_refl n)
    · rintro _ ⟨⟩
      omega
  · exact ⟨nofun, nofun⟩

theorem period_parent_eq {prev : Option Nat} (hprev : ∀ p, prev = some p → p < arena.length) :
    ∃ boundary, period_parent checker arena prev = some boundary ∧ Boundary checker arena boundary ∧
      bip9_state checker arena boundary = bip9_state checker arena prev := by
  cases prev with
  | none => exact ⟨none, rfl, nofun, rfl⟩
  | some p =>
    have hlt := hprev p rfl
    have hat := List.getElem?_eq_getElem hlt
    have hheight := htree.height_eq hat
    obtain ⟨n, hn⟩ := Int.eq_ofNat_of_zero_le hperiod.le
    have hpos : 0 < n := by omega
    have hmod : ((height_of arena p : Int) + 1).tmod checker.period = ((height_of arena p + 1) % n : Nat) := by
      rw [hn]
      exact Int.ofNat_tmod (height_of arena p + 1) n
    have hsplit := Nat.div_add_mod (height_of arena p + 1) n
    refine ⟨_, by rw [period_parent, hat]; exact if_neg (by omega), ?_⟩
    rw [hheight, hmod, htree.get_ancestor_eq hlt]
    by_cases hdeep : (height_of arena p + 1) % n ≤ height_of arena p
    · rw [if_pos (by omega),
        show height_of arena p - ((height_of arena p : Int) - ((height_of arena p + 1) % n : Nat)).toNat =
          (height_of arena p + 1) % n by omega]
      obtain ⟨q, hq, hlow⟩ := htree.leveled.ancestor_some hdeep
      have hle := htree.ancestor_le hq
      have hwhole : height_of arena q + 1 = n * ((height_of arena p + 1) / n) := by omega
      rw [hq]
      refine ⟨?_, ?_⟩
      · rintro _ ⟨⟩
        rw [hn, Int.toNat_natCast, hwhole]
        exact ⟨by omega, Nat.dvd_mul_right _ _⟩
      · unfold bip9_state
        dsimp only
        rw [hn, Int.toNat_natCast, hwhole, Nat.mul_div_cancel_left _ hpos]
        split
        · rfl
        split
        · rfl
        symm
        apply period_state_of_ancestor htree hq hdeep
        rw [hn, Int.toNat_natCast, hwhole, Nat.mul_comm]
    · have hshort : (height_of arena p + 1) / n = 0 := by
        have hzero : n * ((height_of arena p + 1) / n) = 0 := by
          have := Nat.mod_le (height_of arena p + 1) n
          omega
        exact (Nat.mul_eq_zero.mp hzero).resolve_left (by omega)
      rw [if_neg (by omega)]
      refine ⟨nofun, ?_⟩
      unfold bip9_state
      dsimp only
      rw [hn, Int.toNat_natCast, hshort]
      rfl

include hstart

theorem walk_forward_eq {target : Option Nat} {to_compute : List Nat} :
    ∀ {prev : Option Nat} {cache : ThresholdConditionCache}, Leads checker arena target to_compute prev →
      Faithful checker arena cache →
      ∃ after, walk_forward checker arena to_compute (bip9_state checker arena prev) cache =
        (bip9_state checker arena target, after) ∧ Faithful checker arena after := by
  induction to_compute with
  | nil =>
    intro prev cache hleads hcache
    cases hleads
    exact ⟨cache, rfl, hcache⟩
  | cons p to_compute ih =>
    intro prev cache hleads hcache
    obtain ⟨hboundary, hprev, hleads⟩ := hleads
    obtain ⟨hlt, hlast⟩ := hboundary p rfl
    have hstep := bip9_state_step htree hperiod hstart hlt hlast
    rw [hprev] at hstep
    rw [walk_forward, ← hstep]
    exact ih hleads (hcache.insert rfl)

include htimely

theorem walk_back_eq {target : Option Nat} {fuel : Nat} :
    ∀ {prev : Option Nat} {to_compute : List Nat} {cache : ThresholdConditionCache},
      Boundary checker arena prev → (∀ p, prev = some p → p + 1 < fuel) → 0 < fuel →
      Leads checker arena target to_compute prev → Faithful checker arena cache →
      ∃ known rest after, walk_back checker arena fuel prev to_compute cache = some (known, rest, after) ∧
        after.lookup known = some (bip9_state checker arena known) ∧ Leads checker arena target rest known ∧
        Faithful checker arena after := by
  induction fuel with
  | zero => exact fun _ _ hfuel => absurd hfuel (Nat.lt_irrefl 0)
  | succ fuel ih =>
    intro prev to_compute cache hboundary hfuel _ hleads hcache
    unfold walk_back
    by_cases hknown : prev ∈ cache
    · obtain ⟨state, hlookup⟩ := Option.isSome_iff_exists.mp (AList.lookup_isSome.mpr hknown)
      rw [if_pos hknown]
      refine ⟨prev, to_compute, cache, rfl, ?_, hleads, hcache⟩
      rw [hlookup, hcache prev state hlookup]
    · rw [if_neg hknown]
      cases prev with
      | none =>
        have hdefined : ThresholdState.Defined = bip9_state checker arena none := by
          rw [bip9_state, if_neg hstart.1, if_neg hstart.2]
        exact ⟨none, to_compute, _, rfl, by rw [AList.lookup_insert, hdefined], hleads, hcache.insert hdefined⟩
      | some p =>
        dsimp only
        split
        · next hearly =>
          have hdefined : ThresholdState.Defined = bip9_state checker arena (some p) := by
            rw [bip9_state, if_neg hstart.1, if_neg hstart.2]
            exact (period_state_of_early htree htimely hearly _).symm
          exact ⟨some p, to_compute, _, rfl, by rw [AList.lookup_insert, hdefined], hleads, hcache.insert hdefined⟩
        · obtain ⟨hbefore, hless⟩ := boundary_before htree hperiod hboundary
          have hp := hfuel p rfl
          apply ih hbefore
          · intro q hq
            have := hless q hq
            omega
          · omega
          · exact ⟨hboundary, rfl, hleads⟩
          · exact hcache

end

theorem get_state_for_eq (htree : Tree arena) (htimely : Timely arena) (hperiod : 0 < checker.period)
    {cache : ThresholdConditionCache} (hcache : Faithful checker arena cache) {prev : Option Nat}
    (hprev : ∀ p, prev = some p → p < arena.length) :
    ∃ after, get_state_for checker arena prev cache = some (bip9_state checker arena prev, after) ∧
      Faithful checker arena after := by
  by_cases halways : checker.begin_time = Bip9Deployment.ALWAYS_ACTIVE
  · exact ⟨cache, by rw [get_state_for, bip9_state_always halways, if_pos halways], hcache⟩
  by_cases hnever : checker.begin_time = Bip9Deployment.NEVER_ACTIVE
  · exact ⟨cache, by rw [get_state_for, bip9_state_never hnever, if_neg halways, if_pos hnever], hcache⟩
  obtain ⟨boundary, hparent, hboundary, hstate⟩ := period_parent_eq htree hperiod hprev
  have hfuel : ∀ p, boundary = some p → p + 1 < arena.length + 1 := by
    intro p hp
    have := (hboundary p hp).1
    omega
  have hnothing : Leads checker arena boundary [] boundary := rfl
  obtain ⟨known, rest, filled, hback, hlookup, hleads, hfilled⟩ :=
    walk_back_eq htree htimely hperiod ⟨halways, hnever⟩ hboundary hfuel (Nat.succ_pos _) hnothing hcache
  obtain ⟨after, hforward, hafter⟩ := walk_forward_eq htree hperiod ⟨halways, hnever⟩ hleads hfilled
  refine ⟨after, ?_, hafter⟩
  rw [get_state_for, if_neg halways, if_neg hnever, hparent, ← hstate, ← hforward]
  simp [hback, hlookup]

theorem filled_by_faithful (htree : Tree arena) (htimely : Timely arena) (hperiod : 0 < checker.period)
    {calls : List (Option Nat)} :
    ∀ {cache : ThresholdConditionCache}, (∀ prev ∈ calls, ∀ p, prev = some p → p < arena.length) →
      Faithful checker arena cache →
      ∃ after, filled_by checker arena calls cache = some after ∧ Faithful checker arena after := by
  induction calls with
  | nil => exact fun {cache} _ hcache => ⟨cache, rfl, hcache⟩
  | cons prev calls ih =>
    intro cache hcalls hcache
    obtain ⟨after, hcall, hafter⟩ :=
      get_state_for_eq htree htimely hperiod hcache (hcalls prev List.mem_cons_self)
    obtain ⟨filled, hrest, hfilled⟩ := ih (fun other hmem => hcalls other (List.mem_cons_of_mem _ hmem)) hafter
    refine ⟨filled, ?_, hfilled⟩
    rw [filled_by, List.foldlM_cons, hcall]
    exact hrest

theorem bip9_state_parent (htree : Tree arena)
    (hstart : checker.begin_time ≠ Bip9Deployment.ALWAYS_ACTIVE ∧ checker.begin_time ≠ Bip9Deployment.NEVER_ACTIVE)
    (x : Nat) :
    bip9_state checker arena (parent_of arena x) =
      period_state checker arena x (height_of arena x / checker.period.toNat) := by
  cases hparent : parent_of arena x with
  | none =>
    rw [bip9_state, if_neg hstart.1, if_neg hstart.2, htree.leveled.root x hparent, Nat.zero_div]
    rfl
  | some p =>
    have hheight := htree.leveled.child x p hparent
    have hup : ancestor (parent_of arena) 1 x = some p := by
      rw [ancestor, hparent]
      rfl
    rw [bip9_state, if_neg hstart.1, if_neg hstart.2, ← hheight]
    symm
    apply period_state_of_ancestor htree hup (by omega)
    rw [← hheight]
    exact Nat.div_mul_le_self _ _

theorem bip9_state_period (htree : Tree arena) {x y c i j : Nat}
    (hsame : height_of arena x / checker.period.toNat = height_of arena y / checker.period.toNat)
    (hx : ancestor (parent_of arena) i x = some c) (hy : ancestor (parent_of arena) j y = some c)
    (hc : height_of arena x / checker.period.toNat * checker.period.toNat ≤ height_of arena c + 1) :
    bip9_state checker arena (parent_of arena x) = bip9_state checker arena (parent_of arena y) := by
  by_cases halways : checker.begin_time = Bip9Deployment.ALWAYS_ACTIVE
  · rw [bip9_state_always halways, bip9_state_always halways]
  by_cases hnever : checker.begin_time = Bip9Deployment.NEVER_ACTIVE
  · rw [bip9_state_never hnever, bip9_state_never hnever]
  rw [bip9_state_parent htree ⟨halways, hnever⟩, bip9_state_parent htree ⟨halways, hnever⟩, ← hsame,
    period_state_of_ancestor htree hx (htree.ancestor_deep hx) hc,
    period_state_of_ancestor htree hy (htree.ancestor_deep hy) hc]

theorem bip9_state_descendant (htree : Tree arena) {x y j : Nat}
    (hdescends : ancestor (parent_of arena) j y = some x)
    (hterminal : (bip9_state checker arena (parent_of arena x)).terminal) :
    bip9_state checker arena (parent_of arena y) = bip9_state checker arena (parent_of arena x) := by
  by_cases halways : checker.begin_time = Bip9Deployment.ALWAYS_ACTIVE
  · rw [bip9_state_always halways, bip9_state_always halways]
  by_cases hnever : checker.begin_time = Bip9Deployment.NEVER_ACTIVE
  · rw [bip9_state_never hnever, bip9_state_never hnever]
  have hdeep := htree.ancestor_deep hdescends
  have hheight := htree.leveled.height_ancestor hdeep hdescends
  rw [bip9_state_parent htree ⟨halways, hnever⟩] at hterminal
  rw [bip9_state_parent htree ⟨halways, hnever⟩, bip9_state_parent htree ⟨halways, hnever⟩]
  have hbranch : period_state checker arena y (height_of arena x / checker.period.toNat) = _ :=
    period_state_of_ancestor htree hdescends hdeep (Nat.le_succ_of_le (Nat.div_mul_le_self _ _))
  have hle : height_of arena x / checker.period.toNat ≤ height_of arena y / checker.period.toNat :=
    Nat.div_le_div_right (by omega)
  rw [← hbranch] at hterminal ⊢
  obtain ⟨more, hmore⟩ := Nat.exists_eq_add_of_le hle
  rw [hmore, period_state_terminal hterminal]

/-- After any calls on blocks of the arena, a call returns the state that BIP 9 gives the block, and BIP 9 gives no
    other; the blocks counted for a deployment are those that signal by BIP 9. The state is one for the blocks of a
    period, on all branches through the block before it, and an `Active` or `Failed` block passes its state on to
    its descendants. -/
theorem get_state_for_transparent (checker : ThresholdConditionChecker) {arena : List BlockIndex} (htree : Tree arena)
    (htimely : Timely arena) (hperiod : 0 < checker.period) {calls : List (Option Nat)}
    (hcalls : ∀ prev ∈ calls, ∀ p, prev = some p → p < arena.length) :
    (∃ cache, filled_by checker arena calls ∅ = some cache ∧
      ∀ prev, (∀ p, prev = some p → p < arena.length) →
        ∃ state after, get_state_for checker arena prev cache = some (state, after) ∧
          ∀ other, Bip9State checker arena prev other ↔ other = state) ∧
    (∀ dep : Bip9Deployment, 0 ≤ dep.bit → dep.bit < 32 → ∀ idx,
      (VersionBitsConditionChecker dep).condition arena idx = true ↔ SignalsFor dep.bit (arena.getD idx .new).version) ∧
    (∀ x y c i j, height_of arena x / checker.period.toNat = height_of arena y / checker.period.toNat →
      ancestor (parent_of arena) i x = some c → ancestor (parent_of arena) j y = some c →
      height_of arena x / checker.period.toNat * checker.period.toNat ≤ height_of arena c + 1 →
      ∀ state, Bip9State checker arena (parent_of arena x) state → Bip9State checker arena (parent_of arena y) state) ∧
    (∀ x y j, ancestor (parent_of arena) j y = some x →
      ∀ state ∈ [ThresholdState.Active, ThresholdState.Failed],
        Bip9State checker arena (parent_of arena x) state → Bip9State checker arena (parent_of arena y) state) := by
  have hinside : ∀ x p, parent_of arena x = some p → p < arena.length := fun x p hparent =>
    (htree.parent_lt hparent).1.trans (htree.parent_lt hparent).2
  obtain ⟨cache, hfilled, hcache⟩ := filled_by_faithful htree htimely hperiod hcalls Faithful.empty
  refine ⟨⟨cache, hfilled, fun prev hprev => ?_⟩, fun dep hlow hhigh idx => condition_version_iff hlow hhigh _, ?_, ?_⟩
  · obtain ⟨after, hcall, _⟩ := get_state_for_eq htree htimely hperiod hcache hprev
    exact ⟨_, after, hcall, fun other => bip9_state_iff htree hperiod hprev⟩
  · intro x y c i j hsame hx hy hc state hstate
    rw [bip9_state_iff htree hperiod (hinside x)] at hstate
    rw [bip9_state_iff htree hperiod (hinside y), hstate]
    exact bip9_state_period htree hsame hx hy hc
  · intro x y j hdescends state hmem hstate
    rw [bip9_state_iff htree hperiod (hinside x)] at hstate
    rw [bip9_state_iff htree hperiod (hinside y)]
    have hterminal : (bip9_state checker arena (parent_of arena x)).terminal := by
      rw [← hstate]
      cases state with
      | Active | Failed => exact True.intro
      | Defined | Started | LockedIn => exact absurd hmem (by decide)
    rw [hstate, bip9_state_descendant htree hdescends hterminal]

/-- A chain of three blocks that all signal for `testdummy`. -/
def signalling_arena : List BlockIndex :=
  [{ BlockIndex.new with version := 0x30000000, time := 1 },
    { BlockIndex.new with version := 0x30000000, time := 2, height := 1, prev := some 0 },
    { BlockIndex.new with version := 0x30000000, time := 3, height := 2, prev := some 1 }]

theorem signalling_arena_tree : Tree signalling_arena where
  root := by
    rintro index ⟨⟩
    exact ⟨rfl, rfl⟩
  child := by
    rintro (_ | _ | _ | idx) index hat hroot
    · exact absurd rfl hroot
    · cases hat
      exact ⟨0, _, rfl, by decide, rfl, rfl⟩
    · cases hat
      exact ⟨1, _, rfl, by decide, rfl, rfl⟩
    · cases hat
  skip := by
    rintro (_ | _ | _ | idx) index skip_idx hat hskip <;> cases hat <;> cases hskip

theorem signalling_arena_timely : Timely signalling_arena := by
  rintro (_ | _ | _ | idx) prev_idx index hat hprev
  · cases hat
    cases hprev
  · cases hat
    cases hprev
    decide +kernel
  · cases hat
    cases hprev
    have hmtp : compute_mtp signalling_arena 1 = 2 := by
      simp [compute_mtp, BlockIndex.get_median_time_past, collect_mtp_ancestors, collect_ancestors_from,
        signalling_arena, MEDIAN_TIME_SPAN, BlockIndex.get_block_time, BlockIndex.new, List.mergeSort,
        List.MergeSort.Internal.splitInTwo]
    rw [hmtp]
    decide
  · cases hat

/-- With periods of one block, the block after these three is active, whatever was
    asked for before. -/
theorem get_state_for_transparent_testdummy :
    ∃ cache,
      filled_by (VersionBitsConditionChecker (.testdummy 0 1 1)) signalling_arena [some 2, none, some 0] ∅ =
        some cache ∧
      ∃ after, get_state_for (VersionBitsConditionChecker (.testdummy 0 1 1)) signalling_arena (some 2) cache =
        some (.Active, after) := by
  have hcalls : ∀ prev ∈ [some 2, none, some 0], ∀ p, prev = some p → p < signalling_arena.length := by
    rintro prev hmem p rfl
    simp only [List.mem_cons, List.not_mem_nil, Option.some.injEq, reduceCtorEq, or_false, false_or] at hmem
    rw [signalling_arena, List.length_cons, List.length_cons, List.length_cons]
    omega
  obtain ⟨⟨cache, hfilled, hcall⟩, _⟩ := get_state_for_transparent (VersionBitsConditionChecker (.testdummy 0 1 1))
    signalling_arena_tree signalling_arena_timely (by decide) hcalls
  obtain ⟨state, after, hafter, hstate⟩ := hcall (some 2) (by rintro _ ⟨⟩; decide)
  have hactive : Bip9 (VersionBitsConditionChecker (.testdummy 0 1 1)) signalling_arena 2 3 .Active := by
    refine .activates (.locks_in (.starts .genesis ?_) ?_) ?_
    · unfold MedianReaches
      decide
    · decide
    · decide
  cases (hstate .Active).mp hactive
  exact ⟨cache, hfilled, after, hafter⟩

end qubitcoin.versionbits
