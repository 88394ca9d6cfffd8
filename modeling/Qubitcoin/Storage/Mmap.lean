import Qubitcoin.Storage.BlockFiles

/-! `qubitcoin-node/mmap_storage.rs`: block files that are read through mappings, and when a
    mapping shows what the file holds. -/

open qubitcoin flatFile transition block transaction block_storage qubitcoind

namespace qubitcoin.mmap_storage

inductive MmapError where
  | file_not_found (file_num : UInt32)
  | out_of_bounds (file_num : UInt32) (offset length file_size : Nat)
  | panic (why : Panic)
  deriving DecidableEq, Repr

/-- The bytes of the file with a number, which is not the name of a file of the store from
    `2^31` on. -/
def file_bytes (blocks_dir : Directory) (file_num : UInt32) : List UInt8 :=
  if file_num < 0x80000000 then blocks_dir.blk file_num.toInt32 else []

/-- The cached mappings. A mapping shows the bytes that the file had when it was mapped. -/
structure MmapBlockReader where
  files : HashMap UInt32 (List UInt8)
  max_mapped_files : Nat

namespace MmapBlockReader

def new : MmapBlockReader := ⟨∅, 16⟩

def with_max_mapped_files (self : MmapBlockReader) (max : Nat) : MmapBlockReader := { self with max_mapped_files := max }

/-- Make room for a mapping by removing the one of the lowest number. -/
def evict (self : MmapBlockReader) : MmapBlockReader :=
  if self.max_mapped_files ≤ self.files.keys.length then
    match self.files.keys.min? with
    | some oldest => { self with files := self.files.erase oldest }
    | none => self
  else self

/-- The mapping of a file, made if there is none. -/
def ensure_mapped (self : MmapBlockReader) (blocks_dir : Directory) (file_num : UInt32) :
    Except MmapError (List UInt8) × MmapBlockReader :=
  match self.files.lookup file_num with
  | some mmap => (.ok mmap, self)
  | none =>
    let mmap := file_bytes blocks_dir file_num
    if mmap.isEmpty then (.error (.file_not_found file_num), self)
    else
      let self := self.evict
      (.ok mmap, { self with files := self.files.insert file_num mmap })

def read_block_data (self : MmapBlockReader) (blocks_dir : Directory) (file_num : UInt32) (offset length : Nat) :
    Except MmapError (List UInt8) × MmapBlockReader :=
  match self.ensure_mapped blocks_dir file_num with
  | (.error e, self) => (.error e, self)
  | (.ok mmap, self) =>
    let file_size := mmap.length
    if 2 ^ 64 ≤ offset + length then (.error (.panic (.overflow .usize)), self)
    else if file_size < offset + length then (.error (.out_of_bounds file_num offset length file_size), self)
    else (.ok ((mmap.drop offset).take length), self)

/-- The offsets behind the headers in the bytes of a file from a place on. -/
def scan_from (magic : Vector UInt8 4) (data : List UInt8) (pos : Nat) : List Nat :=
  if pos + 8 ≤ data.length then
    if (data.drop pos).take 4 = magic.toList then
      let size := littleEndian.ofBytes ((data.drop (pos + 4)).take 4)
      if 0 < size ∧ pos + 8 + size ≤ data.length then (pos + 8) :: scan_from magic data (pos + 8 + size)
      else (pos + 8) :: scan_from magic data (pos + 8)
    else scan_from magic data (pos + 1)
  else []
termination_by data.length - pos

def scan_block_offsets (self : MmapBlockReader) (blocks_dir : Directory) (file_num : UInt32) (magic : Vector UInt8 4) :
    Except MmapError (List Nat) × MmapBlockReader :=
  match self.ensure_mapped blocks_dir file_num with
  | (.error e, self) => (.error e, self)
  | (.ok mmap, self) => (.ok (scan_from magic mmap 0), self)

def unmap_file (self : MmapBlockReader) (file_num : UInt32) : MmapBlockReader :=
  { self with files := self.files.erase file_num }

def unmap_all (self : MmapBlockReader) : MmapBlockReader := { self with files := ∅ }

end MmapBlockReader

/-- A block is written, or the reader is called. -/
inductive Step where
  | write_block (block : Block)
  | read_block_data (file_num : UInt32) (offset length : Nat)
  | scan_block_offsets (file_num : UInt32) (magic : Vector UInt8 4)
  | unmap_file (file_num : UInt32)
  | unmap_all

/-- A store with the blocks it has given a position to, and a reader of its directory. -/
structure Session where
  store : History
  reader : MmapBlockReader

def Session.new (max_mapped_files : Nat) : Session :=
  ⟨.new empty_directory, MmapBlockReader.new.with_max_mapped_files max_mapped_files⟩

def Session.blocks_dir (self : Session) : Directory := self.store.manager.data_dir

def Session.apply (magic : Vector UInt8 4) (self : Session) : Step → Session
  | .write_block block => { self with store := self.store.apply (.write_block block magic none) }
  | .read_block_data file_num offset length =>
    { self with reader := (self.reader.read_block_data self.blocks_dir file_num offset length).2 }
  | .scan_block_offsets file_num magic =>
    { self with reader := (self.reader.scan_block_offsets self.blocks_dir file_num magic).2 }
  | .unmap_file file_num => { self with reader := self.reader.unmap_file file_num }
  | .unmap_all => { self with reader := self.reader.unmap_all }

/-- The numbers of the files fit their type, and a block has a serialized form, which is a
    vector of bytes. -/
def Fits (session : Session) : Step → Prop
  | .write_block block => session.store.manager.current_file < Int32.maxValue ∧ block.encode.length < 2 ^ 63
  | _ => True

/-- The blocks of a file in the order of their writes, serialized. -/
def Session.records (self : Session) (file : Int32) : List (List UInt8) :=
  (self.store.blocks.filter fun entry => entry.1.file = file).map fun entry => entry.2.encode

def Session.positions (self : Session) (file : Int32) : List Nat :=
  (self.store.blocks.filter fun entry => entry.1.file = file).map fun entry => entry.1.pos.toNat

def block_header (magic : Vector UInt8 4) (serialized : List UInt8) : List UInt8 :=
  magic.toList ++ encode_u32 (UInt32.ofNat serialized.length)

theorem length_block_header (magic : Vector UInt8 4) (serialized : List UInt8) :
    (block_header magic serialized).length = 8 := by
  rw [block_header, List.length_append, Vector.length_toList, encode_u32, littleEndian.length_toBytes]

theorem scan_from_record (magic : Vector UInt8 4) (before : List UInt8) {record : List UInt8} (hsize : 0 < record.length)
    (hfits : record.length < 2 ^ 32) (rest : List UInt8) :
    MmapBlockReader.scan_from magic (before ++ (block_header magic record ++ record ++ rest)) before.length =
      (before.length + 8) ::
        MmapBlockReader.scan_from magic (before ++ (block_header magic record ++ record ++ rest))
          (before.length + 8 + record.length) := by
  have hlength : (before ++ (block_header magic record ++ record ++ rest)).length =
      before.length + 8 + record.length + rest.length := by
    rw [List.length_append, List.length_append, List.length_append, length_block_header]
    omega
  have hmagic : magic.toList.length = 4 := Vector.length_toList
  have hbytes : (encode_u32 (UInt32.ofNat record.length)).length = 4 := littleEndian.length_toBytes 4 _
  have hdrop : (before ++ (block_header magic record ++ record ++ rest)).drop before.length =
      magic.toList ++ (encode_u32 (UInt32.ofNat record.length) ++ (record ++ rest)) := by
    rw [List.drop_left, block_header]
    simp only [List.append_assoc]
  have hdrop_four : (before ++ (block_header magic record ++ record ++ rest)).drop (before.length + 4) =
      encode_u32 (UInt32.ofNat record.length) ++ (record ++ rest) := by
    rw [← List.drop_drop, hdrop]
    exact List.drop_left' hmagic
  have hsize_eq : littleEndian.ofBytes (encode_u32 (UInt32.ofNat record.length)) = record.length := by
    rw [encode_u32, littleEndian.ofBytes_toBytes (UInt32.toNat_lt _)]
    exact UInt32.toNat_ofNat_of_lt' hfits
  rw [MmapBlockReader.scan_from, if_pos (by omega), hdrop, List.take_left' hmagic, if_pos rfl, hdrop_four,
    List.take_left' hbytes, hsize_eq, if_pos ⟨hsize, by omega⟩]

theorem scan_from_framed (magic : Vector UInt8 4) {records : List (List UInt8)}
    (hrecords : ∀ record ∈ records, 0 < record.length ∧ record.length < 2 ^ 32) (before : List UInt8) :
    MmapBlockReader.scan_from magic (before ++ framed (block_header magic) records) before.length =
      places (block_header magic) before.length records := by
  induction records generalizing before with
  | nil =>
    rw [MmapBlockReader.scan_from, if_neg (by simp [framed])]
    rfl
  | cons record rest ih =>
    obtain ⟨hsize, hfits⟩ := hrecords record List.mem_cons_self
    have hrest := ih (fun other hmem => hrecords other (List.mem_cons_of_mem _ hmem))
      (before ++ (block_header magic record ++ record))
    have hlength : (before ++ (block_header magic record ++ record)).length = before.length + 8 + record.length := by
      rw [List.length_append, List.length_append, length_block_header]
      omega
    rw [hlength, List.append_assoc] at hrest
    rw [framed_cons, scan_from_record magic before hsize hfits, hrest, places, length_block_header]

/-- The files are the records of their blocks, and a mapping shows the first ones. -/
structure Session.Laid (magic : Vector UInt8 4) (session : Session) : Prop where
  sync : session.store.manager.InSync
  current : 0 ≤ session.store.manager.current_file
  files : ∀ file, session.blocks_dir.blk file = framed (block_header magic) (session.records file)
  positions : ∀ file, session.positions file = places (block_header magic) 0 (session.records file)
  blocks : ∀ pos block, (pos, block) ∈ session.store.blocks →
    0 ≤ pos.file ∧ block.encode.length < 2 ^ 63 ∧ Holds (session.blocks_dir.blk pos.file) pos.pos.toNat block.encode
  mapped : ∀ file_num mmap, session.reader.files.lookup file_num = some mmap →
    ∃ before after, session.records file_num.toInt32 = before ++ after ∧ mmap = framed (block_header magic) before

theorem file_bytes_of_nonneg (blocks_dir : Directory) {file : Int32} (hfile : 0 ≤ file) :
    file_bytes blocks_dir file.toUInt32 = blocks_dir.blk file := by
  have hlt : file.toUInt32 < 0x80000000 := by
    rw [UInt32.lt_iff_toNat_lt, Int32.toNat_toUInt32_of_le hfile]
    have hint := file.toInt_lt
    change file.toInt.toNat < 2147483648
    omega
  rw [file_bytes, if_pos hlt, Int32.toInt32_toUInt32]

namespace MmapBlockReader

variable {self : MmapBlockReader}

theorem evict_lookup {file_num : UInt32} {mmap : List UInt8} (h : self.evict.files.lookup file_num = some mmap) :
    self.files.lookup file_num = some mmap := by
  unfold evict at h
  split at h
  · split at h
    · next oldest _ =>
      by_cases heq : file_num = oldest
      · rw [heq, AList.lookup_erase] at h
        cases h
      · rwa [AList.lookup_erase_ne heq] at h
    · exact h
  · exact h

/-- The mapping of a file is the cached one, or shows the bytes of the file. The others were
    there before. -/
theorem ensure_mapped_cases (blocks_dir : Directory) (file_num : UInt32) :
    (file_bytes blocks_dir file_num = [] ∧ self.files.lookup file_num = none ∧
      self.ensure_mapped blocks_dir file_num = (.error (.file_not_found file_num), self)) ∨
    ∃ mmap after, self.ensure_mapped blocks_dir file_num = (.ok mmap, after) ∧
      (self.files.lookup file_num = some mmap ∨
        self.files.lookup file_num = none ∧ mmap = file_bytes blocks_dir file_num ∧ mmap ≠ []) ∧
      ∀ other shown, after.files.lookup other = some shown →
        self.files.lookup other = some shown ∨ other = file_num ∧ shown = mmap := by
  unfold ensure_mapped
  cases hlookup : self.files.lookup file_num with
  | some mmap => exact .inr ⟨mmap, self, rfl, .inl rfl, fun _ _ h => .inl h⟩
  | none =>
    dsimp only
    by_cases hempty : file_bytes blocks_dir file_num = []
    · rw [if_pos (List.isEmpty_iff.mpr hempty)]
      exact .inl ⟨hempty, rfl, rfl⟩
    · rw [if_neg (by rwa [List.isEmpty_iff])]
      refine .inr ⟨_, _, rfl, .inr ⟨rfl, rfl, hempty⟩, fun other shown h => ?_⟩
      change (self.evict.files.insert file_num (file_bytes blocks_dir file_num)).lookup other = some shown at h
      by_cases heq : other = file_num
      · rw [heq, AList.lookup_insert] at h
        exact .inr ⟨heq, (Option.some.inj h).symm⟩
      · rw [AList.lookup_insert_ne heq] at h
        exact .inl (evict_lookup h)

end MmapBlockReader

theorem write_block_spec {self : BlockFileManager} (hsync : self.InSync) (hcurrent : 0 ≤ self.current_file)
    (hfile : self.current_file < Int32.maxValue) (block : Block) (magic : Vector UInt8 4) :
    ∃ (file : Int32) (pos : UInt32) (after : BlockFileManager),
      self.write_block block magic none = (some ⟨file, pos⟩, after) ∧ after.InSync ∧ 0 ≤ after.current_file ∧
      0 ≤ file ∧ pos.toNat = (self.data_dir.blk file).length + 8 ∧
      after.data_dir.blk = extend self.data_dir.blk file (block_header magic block.encode ++ block.encode) := by
  have hle := self.roll_pos_le (BlockFileManager.total_size block)
  have hdir := self.roll_data_dir (BlockFileManager.total_size block)
  have hend := (hsync.roll (BlockFileManager.total_size block) hfile).block_end
  have hnonneg := BlockFileManager.roll_current_file (BlockFileManager.total_size block) hcurrent hfile
  have hafter := hsync.write_block block magic hfile
  rw [← hdir]
  unfold BlockFileManager.write_block at hafter ⊢
  generalize self.roll (BlockFileManager.total_size block) = rolled at hle hend hnonneg hafter ⊢
  have hpos : (UInt32.ofNat (rolled.current_pos + 8)).toNat = rolled.current_pos + 8 :=
    toNat_pos (by unfold MAX_BLOCKFILE_SIZE at hle; omega)
  exact ⟨rolled.current_file, UInt32.ofNat (rolled.current_pos + 8), _, rfl, hafter, hnonneg, hnonneg,
    by rw [hpos, hend], rfl⟩

theorem Session.Laid.write_block {magic : Vector UInt8 4} {self : Session} (hlaid : self.Laid magic) {block : Block}
    (hfits : Fits self (.write_block block)) : (self.apply magic (.write_block block)).Laid magic := by
  obtain ⟨hfile, hlen⟩ := hfits
  obtain ⟨file, pos, after, hwrite, hafter, hcurrent, hnonneg, hpos, hblk⟩ :=
    write_block_spec hlaid.sync hlaid.current hfile block magic
  have hstore : self.store.apply (.write_block block magic none) =
      ⟨after, self.store.blocks ++ [(⟨file, pos⟩, block)], self.store.undos⟩ := by
    change self.store.add_block block (self.store.manager.write_block block magic none) = _
    rw [hwrite]
    rfl
  have hsession : self.apply magic (.write_block block) =
      ⟨⟨after, self.store.blocks ++ [(⟨file, pos⟩, block)], self.store.undos⟩, self.reader⟩ := by
    rw [← hstore]
    rfl
  have hfilter (other : Int32) :
      (self.store.blocks ++ [((⟨file, pos⟩ : DiskBlockPos), block)]).filter (fun entry => entry.1.file = other) =
        self.store.blocks.filter (fun entry => entry.1.file = other) ++
          if file = other then [((⟨file, pos⟩ : DiskBlockPos), block)] else [] := by
    rw [List.filter_append]
    by_cases heq : file = other
    · rw [if_pos heq, List.filter_cons_of_pos (by exact decide_eq_true heq), List.filter_nil]
    · rw [if_neg heq, List.filter_cons_of_neg (by simpa using heq), List.filter_nil]
  have hrecords (other : Int32) : Session.records
      (.mk ⟨after, self.store.blocks ++ [(⟨file, pos⟩, block)], self.store.undos⟩ self.reader) other =
        self.records other ++ if file = other then [block.encode] else [] := by
    unfold Session.records
    dsimp only
    rw [hfilter, List.map_append]
    split <;> rfl
  rw [hsession]
  refine ⟨hafter, hcurrent, fun other => ?_, fun other => ?_, fun pos' stored hmem => ?_, fun file_num mmap hmap => ?_⟩
  · change after.data_dir.blk other = _
    rw [hrecords, hblk]
    by_cases heq : file = other
    · subst heq
      rw [extend_self, if_pos rfl, framed_concat, ← hlaid.files]
      rfl
    · rw [extend_of_ne _ (Ne.symm heq), if_neg heq, List.append_nil, ← hlaid.files]
      rfl
  · rw [hrecords]
    unfold Session.positions
    dsimp only
    rw [hfilter, List.map_append]
    change self.positions other ++ _ = _
    rw [hlaid.positions other]
    by_cases heq : file = other
    · subst heq
      have hlength : (framed (block_header magic) (self.records file)).length + 8 = pos.toNat := by
        rw [← hlaid.files, hpos]
        rfl
      rw [if_pos rfl, if_pos rfl, places_concat, length_block_header, Nat.zero_add, hlength]
      rfl
    · rw [if_neg heq, if_neg heq, List.append_nil]
      exact List.append_nil _
  · change 0 ≤ pos'.file ∧ stored.encode.length < 2 ^ 63 ∧ Holds (after.data_dir.blk pos'.file) pos'.pos.toNat stored.encode
    rw [hblk]
    obtain hold | hnew := List.mem_append.mp hmem
    · obtain ⟨hnonneg', hlen', hholds⟩ := hlaid.blocks pos' stored hold
      exact ⟨hnonneg', hlen', hholds.extend file _⟩
    · cases List.mem_singleton.mp hnew
      refine ⟨hnonneg, hlen, ?_⟩
      have hholds := holds_append (self.store.manager.data_dir.blk file) (block_header magic block.encode) block.encode
      rw [length_block_header, ← hpos] at hholds
      rwa [extend_self]
  · obtain ⟨before, later, hsplit, hmmap⟩ := hlaid.mapped file_num mmap hmap
    refine ⟨before, later ++ if file = file_num.toInt32 then [block.encode] else [], ?_, hmmap⟩
    rw [hrecords, hsplit, List.append_assoc]

theorem Session.Laid.remap {magic : Vector UInt8 4} {self : Session} (hlaid : self.Laid magic) {reader : MmapBlockReader}
    (hreader : ∀ file_num mmap, reader.files.lookup file_num = some mmap →
      ∃ before after, self.records file_num.toInt32 = before ++ after ∧ mmap = framed (block_header magic) before) :
    Session.Laid magic { self with reader } :=
  ⟨hlaid.sync, hlaid.current, hlaid.files, hlaid.positions, hlaid.blocks, hreader⟩

theorem Session.Laid.ensure_mapped {magic : Vector UInt8 4} {self : Session} (hlaid : self.Laid magic)
    (file_num : UInt32) : Session.Laid magic { self with reader := (self.reader.ensure_mapped self.blocks_dir file_num).2 } := by
  obtain ⟨_, _, heq⟩ | ⟨mmap, after, heq, hmmap, hothers⟩ :=
    @MmapBlockReader.ensure_mapped_cases self.reader self.blocks_dir file_num
  · rw [heq]
    exact hlaid
  · rw [heq]
    refine hlaid.remap fun other shown hshown => ?_
    obtain hold | ⟨rfl, rfl⟩ := hothers other shown hshown
    · exact hlaid.mapped other shown hold
    · obtain hcached | ⟨_, hbytes, hne⟩ := hmmap
      · exact hlaid.mapped other shown hcached
      · refine ⟨self.records other.toInt32, [], (List.append_nil _).symm, ?_⟩
        rw [hbytes] at hne ⊢
        unfold file_bytes at hne ⊢
        split at hne
        · next hlt => rw [if_pos hlt, hlaid.files]
        · exact absurd rfl hne

theorem MmapBlockReader.read_block_data_snd (self : MmapBlockReader) (blocks_dir : Directory) (file_num : UInt32)
    (offset length : Nat) :
    (self.read_block_data blocks_dir file_num offset length).2 = (self.ensure_mapped blocks_dir file_num).2 := by
  unfold read_block_data
  cases self.ensure_mapped blocks_dir file_num with
  | mk result after =>
    cases result with
    | error e => rfl
    | ok mmap =>
      dsimp only
      split
      · rfl
      · split <;> rfl

theorem MmapBlockReader.scan_block_offsets_snd (self : MmapBlockReader) (blocks_dir : Directory) (file_num : UInt32)
    (magic : Vector UInt8 4) :
    (self.scan_block_offsets blocks_dir file_num magic).2 = (self.ensure_mapped blocks_dir file_num).2 := by
  unfold scan_block_offsets
  cases self.ensure_mapped blocks_dir file_num with
  | mk result after => cases result <;> rfl

theorem Session.Laid.apply {magic : Vector UInt8 4} {self : Session} (hlaid : self.Laid magic) {step : Step}
    (hfits : Fits self step) : (self.apply magic step).Laid magic := by
  cases step with
  | write_block block => exact hlaid.write_block hfits
  | read_block_data file_num offset length =>
    rw [Session.apply, MmapBlockReader.read_block_data_snd]
    exact hlaid.ensure_mapped file_num
  | scan_block_offsets file_num magic =>
    rw [Session.apply, MmapBlockReader.scan_block_offsets_snd]
    exact hlaid.ensure_mapped file_num
  | unmap_file file_num =>
    refine hlaid.remap fun other mmap hmap => ?_
    change (self.reader.files.erase file_num).lookup other = some mmap at hmap
    by_cases heq : other = file_num
    · rw [heq, AList.lookup_erase] at hmap
      cases hmap
    · rw [AList.lookup_erase_ne heq] at hmap
      exact hlaid.mapped other mmap hmap
  | unmap_all => exact hlaid.remap nofun

theorem Session.laid_new (magic : Vector UInt8 4) (max_mapped_files : Nat) : (new max_mapped_files).Laid magic :=
  ⟨BlockFileManager.inSync_new, Int32.le_refl _, fun _ => rfl, fun _ => rfl, nofun, nofun⟩

theorem Session.Laid.shows {magic : Vector UInt8 4} {self : Session} (hlaid : self.Laid magic) {file : Int32}
    (hnonneg : 0 ≤ file) (hne : self.records file ≠ []) :
    ∃ mmap after first later, self.reader.ensure_mapped self.blocks_dir file.toUInt32 = (.ok mmap, after) ∧
      self.records file = first ++ later ∧ mmap = framed (block_header magic) first ∧
      (self.reader.files.lookup file.toUInt32 = some mmap ∨
        self.reader.files.lookup file.toUInt32 = none ∧ later = []) := by
  have hbytes : file_bytes self.blocks_dir file.toUInt32 = framed (block_header magic) (self.records file) := by
    rw [file_bytes_of_nonneg _ hnonneg, hlaid.files]
  obtain ⟨hempty, _, _⟩ | ⟨mmap, after, heq, hmmap, _⟩ :=
    @MmapBlockReader.ensure_mapped_cases self.reader self.blocks_dir file.toUInt32
  · rw [hbytes] at hempty
    obtain ⟨record, rest, hrecords⟩ := List.exists_cons_of_ne_nil hne
    have hlength := congrArg List.length hempty
    rw [hrecords, framed_cons, List.length_append, List.length_append, length_block_header, List.length_nil] at hlength
    omega
  · obtain hcached | ⟨hnone, rfl, _⟩ := hmmap
    · obtain ⟨first, later, hsplit, hfirst⟩ := hlaid.mapped _ mmap hcached
      exact ⟨mmap, after, first, later, heq, hsplit, hfirst, .inl hcached⟩
    · exact ⟨_, after, self.records file, [], heq, (List.append_nil _).symm, hbytes, .inr ⟨hnone, rfl⟩⟩

/-- A block is read at its position exactly if the mapping of its file, if there is one, reaches
    to its end. -/
theorem Session.Laid.read_iff {magic : Vector UInt8 4} {self : Session} (hlaid : self.Laid magic) {pos : DiskBlockPos}
    {block : Block} (hmem : (pos, block) ∈ self.store.blocks) :
    (self.reader.read_block_data self.blocks_dir pos.file.toUInt32 pos.pos.toNat block.encode.length).1 =
        .ok block.encode ↔
      ∀ mmap, self.reader.files.lookup pos.file.toUInt32 = some mmap →
        pos.pos.toNat + block.encode.length ≤ mmap.length := by
  obtain ⟨hnonneg, hlen, hholds⟩ := hlaid.blocks pos block hmem
  have hpos := pos.pos.toNat_lt
  have hrecord : block.encode ∈ self.records pos.file :=
    List.mem_map.mpr ⟨(pos, block), List.mem_filter.mpr ⟨hmem, decide_eq_true rfl⟩, rfl⟩
  obtain ⟨mmap, after, first, later, hmapped, hsplit, hfirst, hwhere⟩ :=
    hlaid.shows hnonneg (List.ne_nil_of_mem hrecord)
  rw [hlaid.files, hsplit, framed_append, ← hfirst] at hholds
  have hreaches : (∀ shown, self.reader.files.lookup pos.file.toUInt32 = some shown →
      pos.pos.toNat + block.encode.length ≤ shown.length) ↔ pos.pos.toNat + block.encode.length ≤ mmap.length := by
    obtain hcached | ⟨hnone, rfl⟩ := hwhere
    · rw [hcached]
      exact ⟨fun h => h mmap rfl, fun h shown heq => Option.some.inj heq ▸ h⟩
    · obtain ⟨before, rest, hfile, hbefore⟩ := hholds
      have hlength := congrArg List.length hfile
      simp only [List.length_append, framed, List.flatMap_nil, List.length_nil] at hlength
      rw [hnone]
      exact ⟨fun _ => by omega, fun _ shown heq => by cases heq⟩
  rw [hreaches, MmapBlockReader.read_block_data, hmapped]
  dsimp only
  rw [if_neg (by omega)]
  by_cases hshort : mmap.length < pos.pos.toNat + block.encode.length
  · rw [if_pos hshort]
    exact ⟨fun heq => (by cases heq), fun h => absurd hshort (Nat.not_lt.mpr h)⟩
  · rw [if_neg hshort, hholds.read_front (Nat.not_lt.mp hshort)]
    exact ⟨fun _ => Nat.not_lt.mp hshort, fun _ => rfl⟩

/-- The scan of a file finds the positions of its blocks exactly if its mapping, if there is
    one, shows all of it. -/
theorem Session.Laid.scan_iff {magic : Vector UInt8 4} {self : Session} (hlaid : self.Laid magic) {file : Int32}
    (hne : self.records file ≠ []) (hsizes : ∀ record ∈ self.records file, record.length < 2 ^ 32) :
    (self.reader.scan_block_offsets self.blocks_dir file.toUInt32 magic).1 = .ok (self.positions file) ↔
      ∀ mmap, self.reader.files.lookup file.toUInt32 = some mmap → mmap.length = (self.blocks_dir.blk file).length := by
  have hblocks : ∀ record ∈ self.records file, 0 ≤ file ∧ 0 < record.length := by
    intro record hmem
    obtain ⟨⟨pos, block⟩, hentry, rfl⟩ := List.mem_map.mp hmem
    obtain ⟨hstored, hfile⟩ := List.mem_filter.mp hentry
    obtain rfl := of_decide_eq_true hfile
    refine ⟨(hlaid.blocks pos block hstored).1, ?_⟩
    simp [Block.encode, BlockHeader.encode, encode_u32, littleEndian.length_toBytes]
  obtain ⟨record, hrecord⟩ := List.exists_mem_of_ne_nil _ hne
  obtain ⟨mmap, after, first, later, hmapped, hsplit, hfirst, hwhere⟩ := hlaid.shows (hblocks record hrecord).1 hne
  have hscan : MmapBlockReader.scan_from magic mmap 0 = places (block_header magic) 0 first := by
    rw [hfirst]
    refine scan_from_framed magic (fun other hmem => ?_) []
    have hall : other ∈ self.records file := hsplit ▸ List.mem_append_left later hmem
    exact ⟨(hblocks other hall).2, hsizes other hall⟩
  have hfile : self.blocks_dir.blk file = mmap ++ framed (block_header magic) later := by
    rw [hlaid.files, hsplit, framed_append, hfirst]
  have hlater : later = [] ↔ framed (block_header magic) later = [] := by
    constructor
    · rintro rfl
      rfl
    · intro hempty
      cases later with
      | nil => rfl
      | cons next rest =>
        have hlength := congrArg List.length hempty
        rw [framed_cons, List.length_append, List.length_append, length_block_header, List.length_nil] at hlength
        omega
  have hshown : (∀ shown, self.reader.files.lookup file.toUInt32 = some shown →
      shown.length = (self.blocks_dir.blk file).length) ↔ later = [] := by
    obtain hcached | ⟨hnone, rfl⟩ := hwhere
    · rw [hcached, hlater, hfile, ← List.length_eq_zero_iff]
      have hiff : mmap.length = (mmap ++ framed (block_header magic) later).length ↔
          (framed (block_header magic) later).length = 0 := by
        rw [List.length_append]
        omega
      rw [← hiff]
      exact ⟨fun h => h mmap rfl, fun h shown heq => Option.some.inj heq ▸ h⟩
    · rw [hnone]
      exact ⟨fun _ => rfl, fun _ shown heq => by cases heq⟩
  rw [hshown, MmapBlockReader.scan_block_offsets, hmapped]
  dsimp only
  rw [hscan, Except.ok.injEq, hlaid.positions, hsplit]
  constructor
  · intro heq
    have hlength := congrArg List.length heq
    rw [length_places, length_places, List.length_append] at hlength
    exact List.length_eq_zero_iff.mp (by omega)
  · rintro rfl
    rw [List.append_nil]

/-- In every run of writes and calls of a reader, a block reads back at its position exactly if
    the mapping of its file, if there is one, reaches to its end, and the scan of a file finds the
    positions of its blocks exactly if its mapping shows all of it. -/
theorem answers_current_iff (magic : Vector UInt8 4) (max_mapped_files : Nat) {steps : List Step} {session : Session}
    (hrun : Trace (fun s step t => Fits s step ∧ t = s.apply magic step) (.new max_mapped_files) steps session) :
    (∀ pos block, (pos, block) ∈ session.store.blocks →
      ((session.reader.read_block_data session.blocks_dir pos.file.toUInt32 pos.pos.toNat block.encode.length).1 =
          .ok block.encode ↔
        ∀ mmap, session.reader.files.lookup pos.file.toUInt32 = some mmap →
          pos.pos.toNat + block.encode.length ≤ mmap.length)) ∧
    ∀ file, session.records file ≠ [] → (∀ record ∈ session.records file, record.length < 2 ^ 32) →
      ((session.reader.scan_block_offsets session.blocks_dir file.toUInt32 magic).1 = .ok (session.positions file) ↔
        ∀ mmap, session.reader.files.lookup file.toUInt32 = some mmap →
          mmap.length = (session.blocks_dir.blk file).length) := by
  have hlaid : session.Laid magic := by
    refine hrun.invariant (Session.Laid magic) ?_ (Session.laid_new magic max_mapped_files)
    rintro s step _ hs ⟨hfits, rfl⟩
    exact hs.apply hfits
  exact ⟨fun pos block hmem => hlaid.read_iff hmem, fun file hne hsizes => hlaid.scan_iff hne hsizes⟩

/-- A block is read and its file unmapped before the next block is written. -/
def unmapped_steps : List Step :=
  [.write_block (stored_block 0), .read_block_data 0 8 145, .unmap_file 0, .write_block (stored_block 1)]

def unmapped_session : Session := unmapped_steps.foldl (Session.apply mainnet_magic) (.new 16)

def second_pos : DiskBlockPos := ⟨0, 161⟩

theorem answers_current_unmapped :
    (unmapped_session.reader.read_block_data unmapped_session.blocks_dir second_pos.file.toUInt32
        second_pos.pos.toNat (stored_block 1).encode.length).1 = .ok (stored_block 1).encode ∧
      (unmapped_session.reader.scan_block_offsets unmapped_session.blocks_dir second_pos.file.toUInt32
        mainnet_magic).1 = .ok [8, 161] := by
  obtain ⟨hread, hscan⟩ := @answers_current_iff mainnet_magic 16 unmapped_steps unmapped_session
    (.cons ⟨⟨by decide, by decide +kernel⟩, rfl⟩ (.cons ⟨trivial, rfl⟩ (.cons ⟨trivial, rfl⟩
      (.cons ⟨⟨by decide +kernel, by decide +kernel⟩, rfl⟩ (.nil _)))))
  have hnone : unmapped_session.reader.files.lookup second_pos.file.toUInt32 = none := by decide +kernel
  have hpositions : unmapped_session.positions second_pos.file = [8, 161] := by decide +kernel
  constructor
  · exact (hread second_pos (stored_block 1) (by decide +kernel)).mpr fun mmap hmap => nomatch hnone.symm.trans hmap
  · rw [← hpositions]
    exact (hscan second_pos.file (by decide +kernel) (by decide +kernel)).mpr
      fun mmap hmap => nomatch hnone.symm.trans hmap

/-- A block is written after its file is mapped, and is beyond the end of the mapping. -/
theorem answers_current_fails :
    ¬∀ (magic : Vector UInt8 4) (max_mapped_files : Nat) (steps : List Step),
      let session := steps.foldl (Session.apply magic) (.new max_mapped_files)
      ∀ pos block, (pos, block) ∈ session.store.blocks →
        (session.reader.read_block_data session.blocks_dir pos.file.toUInt32 pos.pos.toNat block.encode.length).1 =
          .ok block.encode := by
  intro hread
  have hsecond := hread mainnet_magic 16
    [.write_block (stored_block 0), .read_block_data 0 8 145, .write_block (stored_block 1)] second_pos (stored_block 1)
    (by decide +kernel)
  revert hsecond
  decide +kernel

end qubitcoin.mmap_storage
