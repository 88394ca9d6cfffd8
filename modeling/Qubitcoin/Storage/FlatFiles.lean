import Qubitcoin.Lib.FlatFile
import Qubitcoin.Lib.LittleEndian
import Qubitcoin.Lib.Trace
import Qubitcoin.Machine

/-! `qubitcoin-storage/block_file.rs`: raw blocks in flat files, through managers that are opened
    one after the other, and when the records stay readable. -/

open flatFile transition

namespace qubitcoin.block_file

def STORAGE_HEADER_BYTES : UInt32 := 8

structure BlockFilePos where
  file_no : UInt32
  pos : UInt32
  deriving DecidableEq, Repr

def U32_MAX : UInt32 := 0xffffffff

def BlockFilePos.null : BlockFilePos := ⟨U32_MAX, 0⟩

def BlockFilePos.is_null (self : BlockFilePos) : Bool := self.file_no == U32_MAX

/-- What a call reports, or the panic that ends it. An I/O error stands without its cause. -/
inductive Error where
  | too_large (len : Nat) (max_file_size : UInt32)
  | null_position
  | no_header (pos : BlockFilePos)
  | magic_mismatch (pos : BlockFilePos) (expected : Vector UInt8 4) (got : List UInt8)
  | io
  | panic (why : Panic)
  deriving DecidableEq, Repr

/-- A sum of two `u32`. -/
def add (x y : UInt32) : Except Error UInt32 :=
  if x.toNat + y.toNat < 2 ^ 32 then .ok (x + y) else .error (.panic (.overflow .u32))

structure BlockFileInfo where
  n_blocks : UInt32
  n_size : UInt32
  deriving DecidableEq, Repr

def BlockFileInfo.new : BlockFileInfo := ⟨0, 0⟩

structure Inner where
  file_info : List BlockFileInfo
  current_file : UInt32
  deriving DecidableEq, Repr

namespace Inner

def new : Inner := ⟨[.new], 0⟩

def ensure_file_info (self : Inner) (file_no : UInt32) : Inner :=
  let idx := file_no.toNat
  if self.file_info.length ≤ idx then
    { self with file_info := self.file_info ++ List.replicate (idx + 1 - self.file_info.length) .new }
  else self

def file_size (self : Inner) (file_no : UInt32) : UInt32 :=
  match self.file_info[file_no.toNat]? with
  | some fi => fi.n_size
  | none => 0

/-- Roll over to the next file if an entry would make the current one too large. -/
def roll_over (self : Inner) (total_entry_size max_file_size : UInt32) : Except Error Inner :=
  match add (self.file_size self.current_file) total_entry_size with
  | .error e => .error e
  | .ok size =>
    if max_file_size < size then
      match add self.current_file 1 with
      | .error e => .error e
      | .ok cf => .ok ({ self with current_file := cf }.ensure_file_info cf)
    else .ok self

def add_entry (self : Inner) (file_no total_entry_size : UInt32) : Except Error Inner :=
  let self := self.ensure_file_info file_no
  match self.file_info[file_no.toNat]? with
  | none => .error (.panic .index_out_of_bounds)
  | some fi =>
    match add fi.n_blocks 1, add fi.n_size total_entry_size with
    | .ok n_blocks, .ok n_size => .ok { self with file_info := self.file_info.set file_no.toNat ⟨n_blocks, n_size⟩ }
    | .error e, _ | _, .error e => .error e

end Inner

/-- The bytes of the files in a directory, by file number. A file that does not exist is empty. -/
abbrev Directory := UInt32 → List UInt8

def Directory.write (self : Directory) (file_no : UInt32) (offset : Nat) (bytes : List UInt8) : Directory :=
  Function.update self file_no (writeAt 0 (self file_no) offset bytes)

structure BlockFileManager where
  data_dir : Directory
  magic : Vector UInt8 4
  max_file_size : UInt32
  inner : Inner

/-- The bytes of a write that reach the file: all of them, or the first ones if it fails. -/
def written (bytes : List UInt8) : Option Nat → List UInt8
  | none => bytes
  | some n => bytes.take n

/-- The magic and the size of a block in front of its data. -/
def entry (magic : Vector UInt8 4) (data : List UInt8) : List UInt8 :=
  magic.toList ++ littleEndian.toBytes 4 (UInt32.ofNat data.length).toNat ++ data

namespace BlockFileManager

/-- A manager over what the directory holds. -/
def with_params (data_dir : Directory) (magic : Vector UInt8 4) (max_file_size : UInt32) : BlockFileManager :=
  ⟨data_dir, magic, max_file_size, .new⟩

/-- Write an entry at the end of the current file, as the bookkeeping has it. -/
def write_entry (self : BlockFileManager) (data : List UInt8) (total_entry_size : UInt32) (fault : Option Nat) :
    Except Error BlockFilePos × BlockFileManager :=
  let file_no := self.inner.current_file
  let write_offset := self.inner.file_size file_no
  let data_dir := self.data_dir.write file_no write_offset.toNat (written (entry self.magic data) fault)
  if fault.isSome then (.error .io, { self with data_dir })
  else
    match self.inner.add_entry file_no total_entry_size with
    | .error e => (.error e, { self with data_dir })
    | .ok inner =>
      match add write_offset STORAGE_HEADER_BYTES with
      | .error e => (.error e, { self with data_dir, inner })
      | .ok pos => (.ok ⟨file_no, pos⟩, { self with data_dir, inner })

/-- Append a block and return its position. A write that fails leaves the first bytes of its
    entry. -/
def write_block (self : BlockFileManager) (data : List UInt8) (fault : Option Nat) :
    Except Error BlockFilePos × BlockFileManager :=
  let block_size := UInt32.ofNat data.length
  match add STORAGE_HEADER_BYTES block_size with
  | .error e => (.error e, self)
  | .ok total_entry_size =>
    if self.max_file_size < total_entry_size then (.error (.too_large data.length self.max_file_size), self)
    else
      match self.inner.roll_over total_entry_size self.max_file_size with
      | .error e => (.error e, self)
      | .ok inner => { self with inner }.write_entry data total_entry_size fault

def read_block (self : BlockFileManager) (pos : BlockFilePos) : Except Error (List UInt8) :=
  if pos.is_null then .error .null_position
  else if pos.pos < STORAGE_HEADER_BYTES then .error (.no_header pos)
  else
    let header_offset := (pos.pos - STORAGE_HEADER_BYTES).toNat
    let file := (self.data_dir pos.file_no).drop header_offset
    if file.length < 4 then .error .io
    else
      let magic_buf := file.take 4
      if magic_buf ≠ self.magic.toList then .error (.magic_mismatch pos self.magic magic_buf)
      else if file.length < 8 then .error .io
      else
        let block_size := littleEndian.ofBytes ((file.drop 4).take 4)
        if file.length < 8 + block_size then .error .io else .ok ((file.drop 8).take block_size)

end BlockFileManager

/-- A write, or a new manager over the same directory. -/
inductive Call where
  | write_block (data : List UInt8) (fault : Option Nat)
  | with_params

/-- A manager with every write to its directory and what it gave. -/
structure History where
  manager : BlockFileManager
  writes : List (List UInt8 × Except Error BlockFilePos)

def History.new (magic : Vector UInt8 4) (max_file_size : UInt32) : History :=
  ⟨.with_params (fun _ => []) magic max_file_size, []⟩

def History.apply (self : History) : Call → History
  | .write_block data fault =>
    let outcome := self.manager.write_block data fault
    ⟨outcome.2, self.writes ++ [(data, outcome.1)]⟩
  | .with_params =>
    { self with manager := .with_params self.manager.data_dir self.manager.magic self.manager.max_file_size }

/-- Every position reads back what was written there, no file is larger than the maximum, and a
    write failed only on an I/O error or because its record alone is larger than the maximum. -/
structure History.Intact (history : History) : Prop where
  readable : ∀ data pos, (data, .ok pos) ∈ history.writes → history.manager.read_block pos = .ok data
  bounded : ∀ file_no, (history.manager.data_dir file_no).length ≤ history.manager.max_file_size.toNat
  failures : ∀ data e, (data, .error e) ∈ history.writes →
    e = .io ∨ e = .too_large data.length history.manager.max_file_size ∧
      history.manager.max_file_size.toNat < 8 + data.length

/-- No record of a file reaches past an offset. -/
def History.Clear (self : History) (file_no : UInt32) (offset : Nat) : Prop :=
  ∀ data pos, (data, .ok pos) ∈ self.writes → pos.file_no = file_no → pos.pos.toNat + data.length ≤ offset

/-- The place where a block is to be written is clear. If the block does not fit in the current
    file, the sum that shows it fits a `u32`, and the number of the next file is not the one of
    the null position. -/
def History.Room (self : History) (data : List UInt8) : Prop :=
  let file_no := self.manager.inner.current_file
  let size := (self.manager.inner.file_size file_no).toNat
  if size + (8 + data.length) ≤ self.manager.max_file_size.toNat then self.Clear file_no size
  else size + (8 + data.length) < 2 ^ 32 ∧ file_no.toNat + 1 < U32_MAX.toNat ∧ self.Clear (file_no + 1) 0

/-- The part of this that is about the counters alone. -/
def History.Numbered (self : History) (data : List UInt8) : Prop :=
  let file_no := self.manager.inner.current_file
  let size := (self.manager.inner.file_size file_no).toNat
  size + (8 + data.length) ≤ self.manager.max_file_size.toNat ∨
    size + (8 + data.length) < 2 ^ 32 ∧ file_no.toNat + 1 < U32_MAX.toNat

/-- A block of fewer than `2^31` bytes is written where there is room, if it is not too large. -/
def InRoom (history : History) : Call → Prop
  | .write_block data _ =>
    data.length < 2 ^ 31 ∧ (8 + data.length ≤ history.manager.max_file_size.toNat → history.Room data)
  | .with_params => True

theorem add_eq_ok {x y z : UInt32} : add x y = .ok z ↔ z.toNat = x.toNat + y.toNat := by
  unfold add
  split
  · next hfits =>
    have hsum : (x + y).toNat = x.toNat + y.toNat := by rw [UInt32.toNat_add, Nat.mod_eq_of_lt hfits]
    rw [Except.ok.injEq, ← hsum, UInt32.toNat_inj]
    exact eq_comm
  · next hfits =>
    refine ⟨nofun, fun heq => ?_⟩
    exact absurd (heq ▸ z.toNat_lt) hfits

theorem add_of_fits {x y : UInt32} (hfits : x.toNat + y.toNat < 2 ^ 32) :
    ∃ z, add x y = .ok z ∧ z.toNat = x.toNat + y.toNat := by
  have heq : add x y = .ok (x + y) := if_pos hfits
  exact ⟨_, heq, add_eq_ok.mp heq⟩

namespace Inner

/-- There is an entry for each file up to the current one, with counts that agree. -/
structure Counted (inner : Inner) (max_file_size : UInt32) : Prop where
  files : inner.file_info.length = inner.current_file.toNat + 1
  sizes : ∀ fi ∈ inner.file_info, fi.n_size.toNat ≤ max_file_size.toNat ∧ 8 * fi.n_blocks.toNat ≤ fi.n_size.toNat

variable {self : Inner} {total_entry_size max_file_size : UInt32}

theorem counted_new (max_file_size : UInt32) : new.Counted max_file_size := by
  refine ⟨rfl, fun fi hmem => ?_⟩
  obtain rfl := List.mem_singleton.mp hmem
  exact ⟨Nat.zero_le _, Nat.zero_le _⟩

theorem ensure_file_info_of_lt {file_no : UInt32} (hlt : file_no.toNat < self.file_info.length) :
    self.ensure_file_info file_no = self := if_neg (by omega)

theorem Counted.current (hcounted : self.Counted max_file_size) :
    ∃ fi, self.file_info[self.current_file.toNat]? = some fi ∧ self.file_size self.current_file = fi.n_size ∧
      fi ∈ self.file_info := by
  have hlt : self.current_file.toNat < self.file_info.length := by
    rw [hcounted.files]
    exact Nat.lt_succ_self _
  have hget := List.getElem?_eq_getElem hlt
  exact ⟨_, hget, by rw [file_size, hget], List.getElem_mem hlt⟩

theorem Counted.next (hcounted : self.Counted max_file_size) {cf : UInt32}
    (hcf : cf.toNat = self.current_file.toNat + 1) :
    let next := { self with current_file := cf }.ensure_file_info cf
    next.Counted max_file_size ∧ next.current_file = cf ∧ next.file_size cf = 0 ∧
      ∀ file_no, file_no ≠ cf → next.file_size file_no = self.file_size file_no := by
  intro next
  have hlength : self.file_info.length = cf.toNat := by rw [hcounted.files, hcf]
  have hnext : next = ⟨self.file_info ++ [.new], cf⟩ := by
    have hone : cf.toNat + 1 - self.file_info.length = 1 := by omega
    change ensure_file_info _ _ = _
    rw [ensure_file_info, if_pos (by exact hlength.le)]
    dsimp only
    rw [hone, List.replicate_one]
  rw [hnext]
  refine ⟨⟨?_, fun fi hmem => ?_⟩, rfl, ?_, fun file_no hne => ?_⟩
  · rw [List.length_append, hlength]
    rfl
  · obtain hold | hnew := List.mem_append.mp hmem
    · exact hcounted.sizes fi hold
    · obtain rfl := List.mem_singleton.mp hnew
      exact ⟨Nat.zero_le _, Nat.zero_le _⟩
  · have hget : (self.file_info ++ [.new])[cf.toNat]? = some BlockFileInfo.new := by
      rw [← hlength]
      exact List.getElem?_concat_length
    rw [file_size, hget]
    rfl
  · have hother : file_no.toNat ≠ self.file_info.length := by
      rw [hlength]
      exact fun heq => hne (UInt32.toNat_inj.mp heq)
    unfold file_size
    dsimp only
    obtain hlt | hgt := Nat.lt_or_gt_of_ne hother
    · rw [List.getElem?_append_left hlt]
    · rw [List.getElem?_eq_none (by rw [List.length_append, List.length_singleton]; omega),
        List.getElem?_eq_none (by omega)]

theorem Counted.add_entry (hcounted : self.Counted max_file_size) (htotal : 8 ≤ total_entry_size.toNat)
    (hfits : (self.file_size self.current_file).toNat + total_entry_size.toNat ≤ max_file_size.toNat) :
    ∃ after, self.add_entry self.current_file total_entry_size = .ok after ∧ after.Counted max_file_size ∧
      after.current_file = self.current_file ∧
      (after.file_size self.current_file).toNat = (self.file_size self.current_file).toNat + total_entry_size.toNat ∧
      ∀ file_no, file_no ≠ self.current_file → after.file_size file_no = self.file_size file_no := by
  obtain ⟨fi, hget, hsize, hmem⟩ := hcounted.current
  have hlt : self.current_file.toNat < self.file_info.length := by
    rw [hcounted.files]
    exact Nat.lt_succ_self _
  have hblocks := (hcounted.sizes fi hmem).2
  have hmax := max_file_size.toNat_lt
  rw [hsize] at hfits ⊢
  obtain ⟨n_blocks, hadd_blocks, hn_blocks⟩ := @add_of_fits fi.n_blocks 1 (by
    change fi.n_blocks.toNat + 1 < 2 ^ 32
    omega)
  obtain ⟨n_size, hadd_size, hn_size⟩ := @add_of_fits fi.n_size total_entry_size (by omega)
  replace hn_blocks : n_blocks.toNat = fi.n_blocks.toNat + 1 := hn_blocks
  refine ⟨{ self with file_info := self.file_info.set self.current_file.toNat ⟨n_blocks, n_size⟩ }, ?_,
    ⟨?_, fun other hother => ?_⟩, rfl, ?_, fun file_no hne => ?_⟩
  · unfold Inner.add_entry
    rw [ensure_file_info_of_lt hlt]
    dsimp only
    rw [hget]
    dsimp only
    rw [hadd_blocks, hadd_size]
  · rw [List.length_set]
    exact hcounted.files
  · obtain hold | rfl := List.mem_or_eq_of_mem_set hother
    · exact hcounted.sizes other hold
    · constructor
      · change n_size.toNat ≤ _
        omega
      · change 8 * n_blocks.toNat ≤ n_size.toNat
        omega
  · rw [← hn_size, file_size, List.getElem?_set_self hlt]
  · unfold file_size
    dsimp only
    rw [List.getElem?_set_ne fun heq => hne (UInt32.toNat_inj.mp heq.symm)]

end Inner

theorem length_entry (magic : Vector UInt8 4) (data : List UInt8) : (entry magic data).length = 8 + data.length := by
  rw [entry, List.length_append, List.length_append, Vector.length_toList, littleEndian.length_toBytes]

theorem length_written_le (bytes : List UInt8) (fault : Option Nat) : (written bytes fault).length ≤ bytes.length := by
  cases fault with
  | none => exact Nat.le_refl _
  | some n => exact List.length_take_le' n bytes

theorem Directory.length_write_le (self : Directory) (file_no : UInt32) (offset : Nat) (bytes : List UInt8)
    {limit : Nat} (hlimit : ∀ file_no, (self file_no).length ≤ limit) (hfits : offset + bytes.length ≤ limit)
    (other : UInt32) : (self.write file_no offset bytes other).length ≤ limit := by
  unfold Directory.write
  by_cases heq : other = file_no
  · subst heq
    rw [Function.update_self]
    exact (length_writeAt_le ..).trans (max_le (hlimit other) hfits)
  · rw [Function.update_of_ne heq]
    exact hlimit other

theorem Directory.holds_write {self : Directory} {file_no other : UInt32} {offset pos : Nat} {record : List UInt8}
    (hholds : Holds (self other) pos record) (hclear : other = file_no → pos + record.length ≤ offset)
    (bytes : List UInt8) : Holds (self.write file_no offset bytes other) pos record := by
  unfold Directory.write
  by_cases heq : other = file_no
  · have hbefore := hclear heq
    subst heq
    rw [Function.update_self]
    exact hholds.writeAt 0 hbefore bytes
  · rwa [Function.update_of_ne heq]

theorem BlockFileManager.read_entry {self : BlockFileManager} {pos : BlockFilePos} {data : List UInt8}
    (hfile : pos.file_no ≠ U32_MAX) (hpos : 8 ≤ pos.pos.toNat) (hlen : data.length < 2 ^ 32)
    (hholds : Holds (self.data_dir pos.file_no) (pos.pos.toNat - 8) (entry self.magic data)) :
    self.read_block pos = .ok data := by
  obtain ⟨after, hdrop⟩ := hholds.drop
  have hnull : pos.is_null = false := by
    rw [BlockFilePos.is_null, beq_eq_false_iff_ne]
    exact hfile
  have hheader : ¬ pos.pos < STORAGE_HEADER_BYTES := by
    rw [UInt32.lt_iff_toNat_lt]
    exact Nat.not_lt.mpr hpos
  have hoffset : (pos.pos - STORAGE_HEADER_BYTES).toNat = pos.pos.toNat - 8 :=
    UInt32.toNat_sub_of_le _ _ (UInt32.le_iff_toNat_le.mpr hpos)
  have hmagic : self.magic.toList.length = 4 := Vector.length_toList
  have hbytes := littleEndian.length_toBytes 4 (UInt32.ofNat data.length).toNat
  have hsize : littleEndian.ofBytes (littleEndian.toBytes 4 (UInt32.ofNat data.length).toNat) = data.length := by
    rw [littleEndian.ofBytes_toBytes (UInt32.toNat_lt _)]
    exact UInt32.toNat_ofNat_of_lt' hlen
  unfold BlockFileManager.read_block
  rw [hnull, if_neg Bool.false_ne_true, if_neg hheader]
  dsimp only
  rw [hoffset, hdrop, entry]
  generalize littleEndian.toBytes 4 (UInt32.ofNat data.length).toNat = size at hbytes hsize
  rw [if_neg (by simp only [List.length_append]; omega), List.append_assoc, List.append_assoc, List.take_left' hmagic,
    if_neg (fun h => h rfl), if_neg (by simp only [List.length_append]; omega)]
  have hdrop_four : (self.magic.toList ++ (size ++ (data ++ after))).drop 4 = size ++ (data ++ after) :=
    List.drop_left' hmagic
  have hdrop_eight : (self.magic.toList ++ (size ++ (data ++ after))).drop 8 = data ++ after := by
    rw [← List.append_assoc]
    exact List.drop_left' (by rw [List.length_append, hmagic, hbytes])
  rw [hdrop_four, List.take_left' hbytes, hsize, if_neg (by simp only [List.length_append]; omega), hdrop_eight,
    List.take_left' rfl]

theorem Inner.Counted.roll_over {self : Inner} {total_entry_size max_file_size : UInt32}
    (hcounted : self.Counted max_file_size) (hcurrent : self.current_file.toNat < U32_MAX.toNat)
    (htotal : total_entry_size.toNat ≤ max_file_size.toNat)
    (hnumbered : (self.file_size self.current_file).toNat + total_entry_size.toNat ≤ max_file_size.toNat ∨
      (self.file_size self.current_file).toNat + total_entry_size.toNat < 2 ^ 32 ∧
        self.current_file.toNat + 1 < U32_MAX.toNat) :
    ∃ rolled, self.roll_over total_entry_size max_file_size = .ok rolled ∧ rolled.Counted max_file_size ∧
      rolled.current_file.toNat < U32_MAX.toNat ∧
      (rolled.file_size rolled.current_file).toNat + total_entry_size.toNat ≤ max_file_size.toNat ∧
      (rolled = self ∨
        max_file_size.toNat < (self.file_size self.current_file).toNat + total_entry_size.toNat ∧
          rolled.current_file = self.current_file + 1 ∧
          rolled.current_file.toNat = self.current_file.toNat + 1 ∧ rolled.file_size rolled.current_file = 0 ∧
          ∀ file_no, file_no ≠ rolled.current_file → rolled.file_size file_no = self.file_size file_no) := by
  have hmax := max_file_size.toNat_lt
  obtain ⟨size, hadd, hsize⟩ := @add_of_fits (self.file_size self.current_file) total_entry_size (by omega)
  unfold Inner.roll_over
  rw [hadd]
  dsimp only
  by_cases hfull : max_file_size < size
  · have hmore : max_file_size.toNat < size.toNat := UInt32.lt_iff_toNat_lt.mp hfull
    have hone : (1 : UInt32).toNat = 1 := rfl
    have hlast : U32_MAX.toNat = 2 ^ 32 - 1 := rfl
    obtain ⟨cf, hadd_file, hcf⟩ := @add_of_fits self.current_file 1 (by omega)
    have hcf_eq : cf = self.current_file + 1 := by
      rw [← UInt32.toNat_inj, hcf, UInt32.toNat_add, hone, Nat.mod_eq_of_lt (by omega)]
    obtain ⟨hnext, hfile, hempty, hothers⟩ := hcounted.next hcf
    rw [if_pos hfull, hadd_file]
    dsimp only
    generalize { self with current_file := cf }.ensure_file_info cf = next at hnext hfile hempty hothers ⊢
    subst hfile
    refine ⟨next, rfl, hnext, by omega, ?_, .inr ⟨hsize ▸ hmore, hcf_eq, hcf, hempty, hothers⟩⟩
    rw [hempty]
    exact (Nat.zero_add _).le.trans htotal
  · rw [if_neg hfull]
    rw [UInt32.lt_iff_toNat_lt] at hfull
    exact ⟨self, rfl, hcounted, hcurrent, by omega, .inl rfl⟩

/-- What a write does to a manager: it is refused, it fails, or it gives the end of the current
    file as the position. -/
theorem BlockFileManager.write_block_cases (self : BlockFileManager) {data : List UInt8} (hlen : data.length < 2 ^ 31)
    (hcounted : self.inner.Counted self.max_file_size) (hcurrent : self.inner.current_file.toNat < U32_MAX.toNat)
    (hnumbered : 8 + data.length ≤ self.max_file_size.toNat →
      (self.inner.file_size self.inner.current_file).toNat + (8 + data.length) ≤ self.max_file_size.toNat ∨
        (self.inner.file_size self.inner.current_file).toNat + (8 + data.length) < 2 ^ 32 ∧
          self.inner.current_file.toNat + 1 < U32_MAX.toNat) (fault : Option Nat) :
    (self.max_file_size.toNat < 8 + data.length ∧
      self.write_block data fault = (.error (.too_large data.length self.max_file_size), self)) ∨
    8 + data.length ≤ self.max_file_size.toNat ∧
    ∃ rolled : Inner, rolled.Counted self.max_file_size ∧ rolled.current_file.toNat < U32_MAX.toNat ∧
      (rolled.file_size rolled.current_file).toNat + (8 + data.length) ≤ self.max_file_size.toNat ∧
      (rolled = self.inner ∨
        self.max_file_size.toNat < (self.inner.file_size self.inner.current_file).toNat + (8 + data.length) ∧
          rolled.current_file = self.inner.current_file + 1 ∧
          rolled.current_file.toNat = self.inner.current_file.toNat + 1 ∧
          rolled.file_size rolled.current_file = 0 ∧
          ∀ file_no, file_no ≠ rolled.current_file → rolled.file_size file_no = self.inner.file_size file_no) ∧
      let data_dir := self.data_dir.write rolled.current_file (rolled.file_size rolled.current_file).toNat
        (written (entry self.magic data) fault)
      ((fault ≠ none ∧ self.write_block data fault = (.error .io, { self with data_dir, inner := rolled })) ∨
        fault = none ∧ ∃ (after : Inner) (pos : UInt32),
          self.write_block data fault = (.ok ⟨rolled.current_file, pos⟩, { self with data_dir, inner := after }) ∧
          pos.toNat = (rolled.file_size rolled.current_file).toNat + 8 ∧ after.Counted self.max_file_size ∧
          after.current_file = rolled.current_file ∧
          (after.file_size rolled.current_file).toNat =
            (rolled.file_size rolled.current_file).toNat + (8 + data.length) ∧
          ∀ file_no, file_no ≠ rolled.current_file → after.file_size file_no = rolled.file_size file_no) := by
  have hmax := self.max_file_size.toNat_lt
  have hheader : STORAGE_HEADER_BYTES.toNat = 8 := rfl
  have hblock : (UInt32.ofNat data.length).toNat = data.length := UInt32.toNat_ofNat_of_lt' (by
    change data.length < 2 ^ 32
    omega)
  obtain ⟨total_entry_size, hadd, htotal⟩ := @add_of_fits STORAGE_HEADER_BYTES (UInt32.ofNat data.length) (by omega)
  rw [hheader, hblock] at htotal
  unfold write_block
  dsimp only
  rw [hadd]
  dsimp only
  by_cases hlarge : self.max_file_size < total_entry_size
  · rw [if_pos hlarge]
    exact .inl ⟨htotal ▸ UInt32.lt_iff_toNat_lt.mp hlarge, rfl⟩
  · rw [if_neg hlarge]
    rw [UInt32.lt_iff_toNat_lt] at hlarge
    have hsmall : 8 + data.length ≤ self.max_file_size.toNat := by omega
    obtain ⟨rolled, hrolls, hrolled, hnumber, hfits, hwhere⟩ :=
      hcounted.roll_over hcurrent (htotal ▸ hsmall) (htotal ▸ hnumbered hsmall)
    rw [hrolls]
    rw [htotal] at hfits hwhere
    refine .inr ⟨hsmall, rolled, hrolled, hnumber, hfits, hwhere, ?_⟩
    unfold write_entry
    cases fault with
    | some n => exact .inl ⟨nofun, rfl⟩
    | none =>
      obtain ⟨after, hadd_entry, hafter, hfile, hsize, hothers⟩ := hrolled.add_entry (by omega) (htotal ▸ hfits)
      obtain ⟨pos, hadd_pos, hpos⟩ :=
        @add_of_fits (rolled.file_size rolled.current_file) STORAGE_HEADER_BYTES (by omega)
      refine .inr ⟨rfl, after, pos, ?_, hpos, hafter, hfile, htotal ▸ hsize, hothers⟩
      dsimp only
      rw [if_neg (by exact nofun), hadd_entry]
      dsimp only
      rw [hadd_pos]

/-- The counters are right, and each record is in its file. -/
structure History.Kept (history : History) : Prop where
  counted : history.manager.inner.Counted history.manager.max_file_size
  current : history.manager.inner.current_file.toNat < U32_MAX.toNat
  bounded : ∀ file_no, (history.manager.data_dir file_no).length ≤ history.manager.max_file_size.toNat
  records : ∀ data pos, (data, .ok pos) ∈ history.writes → pos.file_no ≠ U32_MAX ∧ 8 ≤ pos.pos.toNat ∧
    data.length < 2 ^ 32 ∧
    Holds (history.manager.data_dir pos.file_no) (pos.pos.toNat - 8) (entry history.manager.magic data)
  failures : ∀ data e, (data, .error e) ∈ history.writes →
    e = .io ∨ e = .too_large data.length history.manager.max_file_size ∧
      history.manager.max_file_size.toNat < 8 + data.length

theorem History.Kept.intact {self : History} (hkept : self.Kept) : self.Intact := by
  refine ⟨fun data pos hmem => ?_, hkept.bounded, hkept.failures⟩
  obtain ⟨hfile, hpos, hlen, hholds⟩ := hkept.records data pos hmem
  exact BlockFileManager.read_entry hfile hpos hlen hholds

theorem History.Room.numbered {self : History} {data : List UInt8} (hroom : self.Room data) : self.Numbered data := by
  unfold Room at hroom
  dsimp only at hroom
  split at hroom
  · next hfits => exact .inl hfits
  · exact .inr ⟨hroom.1, hroom.2.1⟩

theorem History.Kept.write {self : History} (hkept : self.Kept) {file_no : UInt32} {offset : Nat}
    (hclear : self.Clear file_no offset) (bytes : List UInt8) {data : List UInt8} {pos : BlockFilePos}
    (hmem : (data, .ok pos) ∈ self.writes) : pos.file_no ≠ U32_MAX ∧ 8 ≤ pos.pos.toNat ∧ data.length < 2 ^ 32 ∧
      Holds (self.manager.data_dir.write file_no offset bytes pos.file_no) (pos.pos.toNat - 8)
        (entry self.manager.magic data) := by
  obtain ⟨hfile, hpos, hlen, hholds⟩ := hkept.records data pos hmem
  refine ⟨hfile, hpos, hlen, Directory.holds_write hholds (fun heq => ?_) bytes⟩
  have hend := hclear data pos hmem heq
  rw [length_entry]
  omega

theorem History.apply_write_block {self : History} {data : List UInt8} {fault : Option Nat}
    {outcome : Except Error BlockFilePos × BlockFileManager}
    (heq : self.manager.write_block data fault = outcome) :
    self.apply (.write_block data fault) = ⟨outcome.2, self.writes ++ [(data, outcome.1)]⟩ := by
  rw [← heq]
  rfl

theorem History.Kept.apply {self : History} (hkept : self.Kept) {call : Call} (hroom : InRoom self call) :
    (self.apply call).Kept := by
  cases call with
  | write_block data fault =>
    obtain ⟨hlen, hroom⟩ := hroom
    obtain ⟨hlarge, heq⟩ | ⟨hsmall, rolled, hrolled, hnumber, hfits, hwhere, houtcome⟩ :=
      self.manager.write_block_cases hlen hkept.counted hkept.current (fun h => (hroom h).numbered) fault
    · rw [apply_write_block heq]
      refine ⟨hkept.counted, hkept.current, hkept.bounded, fun data' pos hmem => ?_, fun data' e hmem => ?_⟩
      · obtain hold | hnew := List.mem_append.mp hmem
        · exact hkept.records data' pos hold
        · cases List.mem_singleton.mp hnew
      · obtain hold | hnew := List.mem_append.mp hmem
        · exact hkept.failures data' e hold
        · cases List.mem_singleton.mp hnew
          exact .inr ⟨rfl, hlarge⟩
    · have hclear : self.Clear rolled.current_file (rolled.file_size rolled.current_file).toNat := by
        have hplace := hroom hsmall
        unfold Room at hplace
        dsimp only at hplace
        obtain rfl | ⟨hfull, hfile, _, hempty, _⟩ := hwhere
        · rwa [if_pos hfits] at hplace
        · rw [if_neg (by omega)] at hplace
          rw [hempty, hfile]
          exact hplace.2.2
      have hwritten : (written (entry self.manager.magic data) fault).length ≤ 8 + data.length :=
        (length_written_le ..).trans (length_entry ..).le
      have hbounded := self.manager.data_dir.length_write_le rolled.current_file
        (rolled.file_size rolled.current_file).toNat (written (entry self.manager.magic data) fault) hkept.bounded
        (by omega)
      obtain ⟨_, heq⟩ | ⟨rfl, after, pos, heq, hpos, hafter, hfile, _, _⟩ := houtcome
      · rw [apply_write_block heq]
        refine ⟨hrolled, hnumber, hbounded, fun data' pos hmem => ?_, fun data' e hmem => ?_⟩
        · obtain hold | hnew := List.mem_append.mp hmem
          · exact hkept.write hclear _ hold
          · cases List.mem_singleton.mp hnew
        · obtain hold | hnew := List.mem_append.mp hmem
          · exact hkept.failures data' e hold
          · cases List.mem_singleton.mp hnew
            exact .inl rfl
      · rw [apply_write_block heq]
        refine ⟨hafter, hfile ▸ hnumber, hbounded, fun data' pos' hmem => ?_, fun data' e hmem => ?_⟩
        · obtain hold | hnew := List.mem_append.mp hmem
          · exact hkept.write hclear _ hold
          · cases List.mem_singleton.mp hnew
            have hne : entry self.manager.magic data ≠ [] := by
              rw [← List.length_pos_iff, length_entry]
              omega
            have hplace : pos.toNat - 8 = (rolled.file_size rolled.current_file).toNat := by omega
            refine ⟨fun heq => Nat.ne_of_lt hnumber (congrArg UInt32.toNat heq), ?_, by omega, ?_⟩
            · change 8 ≤ pos.toNat
              omega
            · change Holds (self.manager.data_dir.write _ _ _ rolled.current_file) (pos.toNat - 8) _
              rw [hplace, Directory.write, Function.update_self]
              exact holds_writeAt 0 _ _ hne
        · obtain hold | hnew := List.mem_append.mp hmem
          · exact hkept.failures data' e hold
          · cases List.mem_singleton.mp hnew
  | with_params =>
    exact ⟨Inner.counted_new _, Nat.zero_lt_succ _, hkept.bounded, hkept.records, hkept.failures⟩

/-- The records are those that the counters of the manager count. -/
def History.Alone (self : History) : Prop :=
  ∀ data pos, (data, .ok pos) ∈ self.writes → pos.file_no.toNat ≤ self.manager.inner.current_file.toNat ∧
    pos.pos.toNat + data.length ≤ (self.manager.inner.file_size pos.file_no).toNat

theorem History.Alone.write_block {self : History} (halone : self.Alone) (hkept : self.Kept) {data : List UInt8}
    (hlen : data.length < 2 ^ 31)
    (hnumbered : 8 + data.length ≤ self.manager.max_file_size.toNat → self.Numbered data) (fault : Option Nat) :
    InRoom self (.write_block data fault) ∧ (self.apply (.write_block data fault)).Alone := by
  have hone : (1 : UInt32).toNat = 1 := rfl
  have hlast : U32_MAX.toNat = 2 ^ 32 - 1 := rfl
  refine ⟨⟨hlen, fun hsmall => ?_⟩, ?_⟩
  · unfold Room
    dsimp only
    split
    · intro data' pos hmem hfile
      rw [← hfile]
      exact (halone data' pos hmem).2
    · next hfull =>
      obtain hfits | ⟨hsum, hnumber⟩ := hnumbered hsmall
      · exact absurd hfits hfull
      · refine ⟨hsum, hnumber, fun data' pos hmem heq => ?_⟩
        have hle := (halone data' pos hmem).1
        rw [heq, UInt32.toNat_add, hone, Nat.mod_eq_of_lt (by omega)] at hle
        omega
  · obtain ⟨_, heq⟩ | ⟨_, rolled, _, _, _, hwhere, houtcome⟩ :=
      self.manager.write_block_cases hlen hkept.counted hkept.current hnumbered fault
    · rw [apply_write_block heq]
      intro data' pos hmem
      obtain hold | hnew := List.mem_append.mp hmem
      · exact halone data' pos hold
      · cases List.mem_singleton.mp hnew
    · have hrolled : ∀ data' pos, (data', .ok pos) ∈ self.writes → pos.file_no.toNat ≤ rolled.current_file.toNat ∧
          pos.pos.toNat + data'.length ≤ (rolled.file_size pos.file_no).toNat := by
        intro data' pos hmem
        obtain ⟨hle, hend⟩ := halone data' pos hmem
        obtain rfl | ⟨_, _, hnext, _, hothers⟩ := hwhere
        · exact ⟨hle, hend⟩
        · refine ⟨by omega, ?_⟩
          rw [hothers pos.file_no fun heq => by rw [heq] at hle; omega]
          exact hend
      obtain ⟨_, heq⟩ | ⟨rfl, after, pos, heq, hpos, _, hfile, hsize, hothers⟩ := houtcome
      · rw [apply_write_block heq]
        intro data' pos hmem
        obtain hold | hnew := List.mem_append.mp hmem
        · exact hrolled data' pos hold
        · cases List.mem_singleton.mp hnew
      · rw [apply_write_block heq]
        intro data' pos' hmem
        change pos'.file_no.toNat ≤ after.current_file.toNat ∧ _ ≤ (after.file_size pos'.file_no).toNat
        rw [hfile]
        obtain hold | hnew := List.mem_append.mp hmem
        · obtain ⟨hle, hend⟩ := hrolled data' pos' hold
          refine ⟨hle, ?_⟩
          by_cases heq : pos'.file_no = rolled.current_file
          · rw [heq] at hend ⊢
            omega
          · rw [hothers pos'.file_no heq]
            exact hend
        · cases List.mem_singleton.mp hnew
          refine ⟨Nat.le_refl _, ?_⟩
          change pos.toNat + data.length ≤ (after.file_size rolled.current_file).toNat
          omega

/-- Without a second manager, every position reads back what was written there as long as the
    next file can be numbered: the manager counts all records. -/
theorem one_manager_intact (magic : Vector UInt8 4) (max_file_size : UInt32) {calls : List Call} {history : History}
    (hrun : Trace (fun s call t => t = s.apply call ∧ ∃ data fault, call = .write_block data fault ∧
      data.length < 2 ^ 31 ∧ (8 + data.length ≤ s.manager.max_file_size.toNat → s.Numbered data))
      (.new magic max_file_size) calls history) : history.Intact := by
  have hkept : history.Kept ∧ history.Alone := by
    refine hrun.invariant (fun s => s.Kept ∧ s.Alone) ?_
      ⟨⟨Inner.counted_new _, Nat.zero_lt_succ _, fun _ => Nat.zero_le _, nofun, nofun⟩, nofun⟩
    rintro s call _ ⟨hs, halone⟩ ⟨rfl, data, fault, rfl, hlen, hnumbered⟩
    obtain ⟨hroom, hnext⟩ := halone.write_block hs hlen hnumbered fault
    exact ⟨hs.apply hroom, hnext⟩
  exact hkept.1.intact

/-- In every run in which each block that is not too large is written where there is room, every
    position reads back what was written there, no file is larger than the maximum, and a write
    fails only on an I/O error or because its record is too large. -/
theorem positions_intact (magic : Vector UInt8 4) (max_file_size : UInt32) {calls : List Call} {history : History}
    (hrun : Trace (fun s call t => InRoom s call ∧ t = s.apply call) (.new magic max_file_size) calls history) :
    history.Intact := by
  have hkept : history.Kept := by
    refine hrun.invariant History.Kept ?_
      ⟨Inner.counted_new _, Nat.zero_lt_succ _, fun _ => Nat.zero_le _, nofun, nofun⟩
    rintro s call _ hs ⟨hroom, rfl⟩
    exact hs.apply hroom
  exact hkept.intact

def MAINNET_MAGIC : Vector UInt8 4 := #v[0xf9, 0xbe, 0xb4, 0xd9]

/-- A block of one byte and one that does not fit after it. -/
def two_files : List Call := [.write_block [0x01] none, .write_block [0x02, 0x03] none]

theorem positions_intact_two_files :
    (two_files.foldl History.apply (.new MAINNET_MAGIC 16)).writes =
        [([0x01], .ok ⟨0, 8⟩), ([0x02, 0x03], .ok ⟨1, 8⟩)] ∧
      (two_files.foldl History.apply (.new MAINNET_MAGIC 16)).Intact := by
  refine ⟨by decide +kernel, @positions_intact MAINNET_MAGIC 16 two_files _ (.cons ⟨⟨by decide, fun _ => ?_⟩, rfl⟩
    (.cons ⟨⟨by decide, fun _ => ?_⟩, rfl⟩ (.nil _)))⟩
  · exact fun data pos hmem => nomatch hmem
  · refine ⟨by decide +kernel, by decide +kernel, fun data pos hmem hfile => ?_⟩
    have hwrites : ((History.new MAINNET_MAGIC 16).apply (.write_block [0x01] none)).writes = [([0x01], .ok ⟨0, 8⟩)] := by
      decide +kernel
    rw [hwrites] at hmem
    cases List.mem_singleton.mp hmem
    revert hfile
    decide +kernel

theorem one_manager_intact_two_files : (two_files.foldl History.apply (.new MAINNET_MAGIC 16)).Intact := by
  refine @one_manager_intact MAINNET_MAGIC 16 two_files _ (.cons ⟨rfl, [0x01], none, rfl, by decide, fun _ => ?_⟩
    (.cons ⟨rfl, [0x02, 0x03], none, rfl, by decide, fun _ => ?_⟩ (.nil _)))
  · exact .inl (by decide +kernel)
  · exact .inr (by decide +kernel)

/-- A second manager takes the start of the first file for its end: the position of the first
    block reads back the second one. -/
theorem positions_intact_fails :
    ¬∀ (magic : Vector UInt8 4) (max_file_size : UInt32) (calls : List Call), max_file_size.toNat ≤ 2 ^ 31 →
      (∀ data fault, .write_block data fault ∈ calls → data.length < 2 ^ 31) →
      (calls.foldl History.apply (.new magic max_file_size)).Intact := by
  intro hintact
  have hlens : ∀ data fault,
      Call.write_block data fault ∈ [.write_block [0x01] none, .with_params, .write_block [0x02] none] →
        data.length < 2 ^ 31 := by
    intro data fault hmem
    simp only [List.mem_cons, List.not_mem_nil, or_false, Call.write_block.injEq, reduceCtorEq, false_or] at hmem
    obtain ⟨rfl, _⟩ | ⟨rfl, _⟩ := hmem <;> decide
  have hread := (hintact MAINNET_MAGIC 100 [.write_block [0x01] none, .with_params, .write_block [0x02] none]
    (by decide) hlens).readable [0x01] ⟨0, 8⟩ (by decide +kernel)
  revert hread
  decide +kernel

end qubitcoin.block_file
