import Qubitcoin.Consensus.Transaction

/-! `qubitcoin-common/chain.rs`: block status, block index entries, ancestor
    lookup over the arena, and the active chain. -/

open qubitcoin primitives block

namespace qubitcoin.chain

def MEDIAN_TIME_SPAN : Nat := 11

/-- Validity level in the three low bits, storage and failure flags above. -/
structure BlockStatus where
  bits : UInt32
  deriving DecidableEq, Repr

def BlockStatus.VALID_TREE : UInt32 := 2
def BlockStatus.VALID_TRANSACTIONS : UInt32 := 3
def BlockStatus.VALID_SCRIPTS : UInt32 := 5
def BlockStatus.VALID_MASK : UInt32 := 0x07
def BlockStatus.HAVE_DATA : UInt32 := 8
def BlockStatus.FAILED_VALID : UInt32 := 32
def BlockStatus.FAILED_CHILD : UInt32 := 64
def BlockStatus.FAILED_MASK : UInt32 := FAILED_VALID ||| FAILED_CHILD

def BlockStatus.default : BlockStatus := ⟨0⟩

def BlockStatus.validity (self : BlockStatus) : UInt32 := self.bits &&& VALID_MASK

/-- The level is reached and the block itself has not failed. -/
def BlockStatus.is_valid (self : BlockStatus) (up_to : UInt32) : Bool :=
  self.bits &&& FAILED_VALID == 0 && decide (up_to ≤ self.validity)

/-- Raise the level, unless the block has failed. -/
def BlockStatus.raise_validity (self : BlockStatus) (level : UInt32) : BlockStatus :=
  if self.bits &&& FAILED_VALID != 0 then self
  else if self.validity < level then ⟨(self.bits &&& ~~~VALID_MASK) ||| level⟩
  else self

def BlockStatus.has_failed (self : BlockStatus) : Bool := self.bits &&& FAILED_MASK != 0

def BlockStatus.insert (self : BlockStatus) (flag : UInt32) : BlockStatus := ⟨self.bits ||| flag⟩

/-- What the node knows about one block. Links are indices of the arena. -/
structure BlockIndex where
  block_hash : BlockHash
  version : Int32
  prev_blockhash : BlockHash
  merkle_root : Uint256
  time : UInt32
  bits : UInt32
  nonce : UInt32
  height : Int
  chain_work : ArithUint256
  tx_count : UInt32
  chain_tx_count : UInt64
  status : BlockStatus
  file : Int32
  data_pos : UInt32
  undo_pos : UInt32
  time_max : UInt32
  prev : Option Nat
  skip : Option Nat
  deriving DecidableEq, Repr

def BlockIndex.new : BlockIndex :=
  { block_hash := 0, version := 0, prev_blockhash := 0, merkle_root := 0, time := 0, bits := 0, nonce := 0
    height := 0, chain_work := 0, tx_count := 0, chain_tx_count := 0, status := .default, file := 0
    data_pos := 0, undo_pos := 0, time_max := 0, prev := none, skip := none }

def BlockIndex.from_header (hash256 : List UInt8 → Uint256) (header : BlockHeader) (height : Int) : BlockIndex :=
  { BlockIndex.new with
    block_hash := header.block_hash hash256
    version := header.version
    prev_blockhash := header.prev_blockhash
    merkle_root := header.merkle_root
    time := header.time
    bits := header.bits
    nonce := header.nonce
    height }

def BlockIndex.get_block_time (self : BlockIndex) : Int := self.time.toNat

def BlockIndex.is_valid (self : BlockIndex) (up_to : UInt32) : Bool := self.status.is_valid up_to

/-- The median of the times of at most eleven blocks. -/
def BlockIndex.get_median_time_past (ancestors : List BlockIndex) : Int :=
  let times := ((ancestors.take MEDIAN_TIME_SPAN).map BlockIndex.get_block_time).mergeSort
  times.getD (times.length / 2) 0

/-- The expected number of hashes for a compact target. -/
def get_bits_proof (bits : UInt32) : ArithUint256 :=
  let (target, negative, overflow) := ArithUint256.set_compact bits
  if negative || overflow || target == 0 then 0 else (~~~target) / (target + 1) + 1

def get_block_proof (index : BlockIndex) : ArithUint256 := get_bits_proof index.bits

def invert_lowest_one (n : Nat) : Nat := n &&& (n - 1)

/-- The height that the skip pointer of a block leads to. -/
def get_skip_height (height : Int) : Int :=
  if height < 2 then 0
  else
    let n := height.toNat
    if n % 2 = 1 then invert_lowest_one (invert_lowest_one (n - 1)) + 1 else invert_lowest_one n

/-- The loop of `get_ancestor`. The height falls with every turn. -/
def get_ancestor_loop (arena : List BlockIndex) (target_height : Int) : Nat → Nat → Int → Option Nat
  | 0, walk_idx, walk_height => if target_height < walk_height then none else some walk_idx
  | fuel + 1, walk_idx, walk_height =>
    if target_height < walk_height then
      let skip_height := get_skip_height walk_height
      match arena[walk_idx]? with
      | none => none
      | some block =>
        let skip_prev_height := get_skip_height (walk_height - 1)
        let use_skip := decide (skip_height = target_height) ||
          (decide (target_height < skip_height) &&
            !(decide (skip_prev_height < skip_height - 2) && decide (target_height ≤ skip_prev_height)))
        match block.skip, use_skip with
        | some skip_idx, true => get_ancestor_loop arena target_height fuel skip_idx skip_height
        | _, _ =>
          match block.prev with
          | none => none
          | some prev => get_ancestor_loop arena target_height fuel prev (walk_height - 1)
    else some walk_idx

/-- The ancestor at a height, by skip pointers where they help. -/
def get_ancestor (arena : List BlockIndex) (arena_idx : Nat) (target_height : Int) : Option Nat :=
  match arena[arena_idx]? with
  | none => none
  | some block =>
    if block.height < target_height ∨ target_height < 0 then none
    else get_ancestor_loop arena target_height block.height.toNat arena_idx block.height

/-- The loop of `collect_mtp_ancestors`, for a number of entries. -/
def collect_ancestors_from (arena : List BlockIndex) : Nat → Option Nat → List BlockIndex
  | 0, _ => []
  | _ + 1, none => []
  | count + 1, some idx =>
    match arena[idx]? with
    | none => []
    | some block => block :: collect_ancestors_from arena count block.prev

def collect_mtp_ancestors (arena : List BlockIndex) (arena_idx : Nat) : List BlockIndex :=
  collect_ancestors_from arena MEDIAN_TIME_SPAN (some arena_idx)

def compute_mtp (arena : List BlockIndex) (arena_idx : Nat) : Int :=
  BlockIndex.get_median_time_past (collect_mtp_ancestors arena arena_idx)

/-- Arena indices by height. -/
structure Chain where
  chain : List Nat
  deriving DecidableEq, Repr

def Chain.new : Chain := ⟨[]⟩

def Chain.tip (self : Chain) : Option Nat := self.chain.getLast?

def Chain.height (self : Chain) : Int := self.chain.length - 1

def Chain.get_block_index (self : Chain) (height : Int) : Option Nat :=
  if height < 0 then none else self.chain[height.toNat]?

/-- `Vec::resize` with zero as the filling. -/
def resize (len : Nat) (entries : List Nat) : List Nat :=
  entries.take len ++ List.replicate (len - entries.length) 0

def Chain.set_tip (self : Chain) (index : Nat) (height : Int) : Chain :=
  if height < 0 then ⟨[]⟩
  else ⟨(resize (height.toNat + 1) self.chain).set height.toNat index⟩

/-- The loop of `set_tip_with` from a height down: write the entry and go to its
    parent, until an entry below the tip is right already. -/
def set_tip_loop (get_prev : Nat → Option Nat) (tip_height : Nat) : Nat → Nat → List Nat → List Nat
  | h, current, entries =>
    if entries[h]? = some current ∧ h < tip_height then entries
    else
      let entries := entries.set h current
      match get_prev current, h with
      | some prev, h + 1 => set_tip_loop get_prev tip_height h prev entries
      | _, _ => entries

/-- Make the chain end at a block, following parents as far as needed. -/
def Chain.set_tip_with (self : Chain) (tip_index : Nat) (tip_height : Int) (get_prev : Nat → Option Nat) :
    Chain :=
  if tip_height < 0 then ⟨[]⟩
  else ⟨set_tip_loop get_prev tip_height.toNat tip_height.toNat tip_index
    (resize (tip_height.toNat + 1) self.chain)⟩

end qubitcoin.chain

/-! `qubitcoin-common/pow.rs`: the difficulty that the next block must have. The
    parameters of every network give a positive adjustment interval. -/

open qubitcoin.params

namespace qubitcoin.pow

/-- The target after a period, from the time it took. -/
def calculate_next_work_required (current_bits first_bits : UInt32) (first_block_time last_block_time : Int)
    (params : ConsensusParams) : UInt32 :=
  if params.pow_no_retargeting then current_bits
  else
    let target_timespan := params.pow_target_timespan
    let actual_timespan := last_block_time - first_block_time
    let actual_timespan := max actual_timespan (target_timespan.tdiv 4)
    let actual_timespan := min actual_timespan (target_timespan * 4)
    let pow_limit := uint256_to_arith params.pow_limit
    let base := (ArithUint256.set_compact (if params.enforce_bip94 then first_bits else current_bits)).1
    let new_target := base * BitVec.ofInt 256 actual_timespan / BitVec.ofInt 256 target_timespan
    ArithUint256.get_compact (if pow_limit < new_target then pow_limit else new_target) false

/-- The compact target that a block must claim, from the data of its parent and
    of the first block of the period. -/
def get_next_work_required (last_height : Int) (last_bits last_time first_time first_bits block_time
    last_non_special_bits : UInt32) (params : ConsensusParams) : UInt32 :=
  if (last_height + 1).tmod params.difficulty_adjustment_interval ≠ 0 then
    if params.pow_allow_min_difficulty_blocks then
      if last_time.toNat + params.pow_target_spacing * 2 < (block_time.toNat : Int) then
        ArithUint256.get_compact (uint256_to_arith params.pow_limit) false
      else last_non_special_bits
    else last_bits
  else calculate_next_work_required last_bits first_bits first_time.toNat last_time.toNat params

end qubitcoin.pow

/-! The flags of a block status under the operations on it. -/

namespace qubitcoin.chain

theorem or_and_distrib (a b c : UInt32) : (a ||| b) &&& c = (a &&& c) ||| (b &&& c) := by
  rw [← UInt32.toBitVec_inj]
  ext i hi
  simp [Bool.and_or_distrib_right]

namespace BlockStatus

theorem insert_and {flag mask : UInt32} (hflag : flag &&& mask = 0) (self : BlockStatus) :
    (self.insert flag).bits &&& mask = self.bits &&& mask := by
  rw [BlockStatus.insert, or_and_distrib, hflag, UInt32.or_zero]

theorem raise_validity_and {level mask : UInt32} (hmask : ~~~VALID_MASK &&& mask = mask)
    (hlevel : level &&& mask = 0) (self : BlockStatus) :
    (self.raise_validity level).bits &&& mask = self.bits &&& mask := by
  unfold BlockStatus.raise_validity
  split
  · rfl
  · split
    · rw [or_and_distrib, UInt32.and_assoc, hmask, hlevel, UInt32.or_zero]
    · rfl

theorem raise_validity_validity {level : UInt32} (hlevel : level &&& VALID_MASK = level) {self : BlockStatus}
    (hfailed : self.bits &&& FAILED_VALID = 0) :
    (self.raise_validity level).validity = if self.validity < level then level else self.validity := by
  unfold BlockStatus.raise_validity
  rw [if_neg (by simp [hfailed])]
  split
  · rw [BlockStatus.validity, or_and_distrib, hlevel, UInt32.and_assoc,
      show ~~~VALID_MASK &&& VALID_MASK = 0 from by decide, UInt32.and_zero, UInt32.zero_or]
  · rfl

theorem is_valid_iff {self : BlockStatus} {up_to : UInt32} :
    self.is_valid up_to = true ↔ self.bits &&& FAILED_VALID = 0 ∧ up_to ≤ self.validity := by
  simp [BlockStatus.is_valid]

theorem is_valid_raise_self {level : UInt32} (hlevel : level &&& VALID_MASK = level)
    (hflag : level &&& FAILED_VALID = 0) {self : BlockStatus} (hfailed : self.bits &&& FAILED_VALID = 0) :
    (self.raise_validity level).is_valid level = true := by
  rw [is_valid_iff, raise_validity_and (by decide) hflag, raise_validity_validity hlevel hfailed]
  refine ⟨hfailed, ?_⟩
  split
  · exact UInt32.le_refl _
  · next hle => exact UInt32.not_lt.mp hle

theorem is_valid_raise {level up_to : UInt32} (hlevel : level &&& VALID_MASK = level)
    (hflag : level &&& FAILED_VALID = 0) {self : BlockStatus} (hvalid : self.is_valid up_to = true) :
    (self.raise_validity level).is_valid up_to = true := by
  obtain ⟨hfailed, hle⟩ := is_valid_iff.mp hvalid
  rw [is_valid_iff, raise_validity_and (by decide) hflag, raise_validity_validity hlevel hfailed]
  refine ⟨hfailed, ?_⟩
  split
  · next hlt => exact UInt32.le_trans hle (UInt32.le_of_lt hlt)
  · exact hle

theorem is_valid_of_raise {level up_to : UInt32} (hlevel : level &&& VALID_MASK = level)
    (hflag : level &&& FAILED_VALID = 0) (hlow : level < up_to) {self : BlockStatus}
    (hvalid : (self.raise_validity level).is_valid up_to = true) : self.is_valid up_to = true := by
  rw [is_valid_iff, raise_validity_and (by decide) hflag] at hvalid
  obtain ⟨hfailed, hle⟩ := hvalid
  rw [raise_validity_validity hlevel hfailed] at hle
  refine is_valid_iff.mpr ⟨hfailed, ?_⟩
  split at hle
  · exact absurd hlow (UInt32.not_lt.mpr hle)
  · exact hle

theorem not_has_failed_of_is_valid {up_to : UInt32} {self : BlockStatus} (hvalid : self.is_valid up_to = true)
    (hchild : self.bits &&& FAILED_CHILD = 0) : self.has_failed = false := by
  have hmask : self.bits &&& FAILED_MASK = 0 := by
    rw [FAILED_MASK, UInt32.and_comm, or_and_distrib, UInt32.and_comm, (is_valid_iff.mp hvalid).1,
      UInt32.and_comm, hchild]
    rfl
  simp [BlockStatus.has_failed, hmask]

theorem failed_valid_of_not_has_failed {self : BlockStatus} (hfailed : self.has_failed = false) :
    self.bits &&& FAILED_VALID = 0 := by
  have hmask : self.bits &&& FAILED_MASK = 0 := by simpa [BlockStatus.has_failed] using hfailed
  have hpart : FAILED_MASK &&& FAILED_VALID = FAILED_VALID := by decide
  rw [← hpart, ← UInt32.and_assoc, hmask, UInt32.zero_and]

theorem is_valid_have_data {up_to : UInt32} (self : BlockStatus) :
    (self.insert HAVE_DATA).is_valid up_to = self.is_valid up_to := by
  unfold BlockStatus.is_valid BlockStatus.validity
  rw [insert_and (by decide), insert_and (by decide)]

theorem insert_and_ne_zero {flag mask : UInt32} (hflag : flag &&& mask ≠ 0) (self : BlockStatus) :
    (self.insert flag).bits &&& mask ≠ 0 := by
  rw [BlockStatus.insert, or_and_distrib]
  exact fun hzero => hflag (UInt32.or_eq_zero_iff.mp hzero).2

theorem not_is_valid_failed {up_to : UInt32} (self : BlockStatus) :
    (self.insert FAILED_VALID).is_valid up_to = false := by
  have hflag := insert_and_ne_zero (show FAILED_VALID &&& FAILED_VALID ≠ 0 by decide) self
  simp [BlockStatus.is_valid, hflag]

theorem has_failed_failed (self : BlockStatus) : (self.insert FAILED_VALID).has_failed = true := by
  have hflag := insert_and_ne_zero (show FAILED_VALID &&& FAILED_MASK ≠ 0 by decide) self
  simp [BlockStatus.has_failed, hflag]

end BlockStatus

end qubitcoin.chain
