import Qubitcoin.Coins.Compression
import Qubitcoin.Daemon.Interface
import Qubitcoin.Lib.FlatFile

/-! `qubitcoin-node/undo.rs`, and what comes back of a block and of its undo data from their
    stored forms. -/

open qubitcoin codec primitives serialize transaction block coins

namespace qubitcoin.block

variable (hash256 : List UInt8 → Uint256)

/-- A block that has a wire form. -/
structure Block.Sendable (block : Block) : Prop where
  count : block.vtx.length ≤ MAX_SIZE
  txs : ∀ tx ∈ block.vtx, transaction.Sendable hash256 tx

theorem BlockHeader.exact_decode : Exact BlockHeader.decode BlockHeader.encode fun _ => True where
  run_eq_ok {input header rest} := by
    unfold BlockHeader.decode BlockHeader.encode
    simp only [run_bind_eq_ok, run_pure_eq_ok, exact_decode_u32.run_eq_ok, exact_decode_uint256.run_eq_ok, true_and]
    constructor
    · rintro ⟨version, _, rfl, prev, _, rfl, root, _, rfl, time, _, rfl, bits, _, rfl, nonce, _, rfl, rfl, rfl⟩
      simp
    · rintro rfl
      exact ⟨header.version.toUInt32, _, by simp only [List.append_assoc], header.prev_blockhash, _, rfl,
        header.merkle_root, _, rfl, header.time, _, rfl, header.bits, _, rfl, header.nonce, _, rfl, by simp, rfl⟩

theorem Block.exact_decode : Exact (Block.decode hash256) Block.encode (Block.Sendable hash256) where
  run_eq_ok {input block rest} := by
    have htx : Exact (deserialize_transaction hash256 true) (fun tx => serialize_transaction tx true)
        (transaction.Sendable hash256) := ⟨deserialize_transaction_eq_ok hash256⟩
    unfold Block.decode Block.encode
    simp only [run_bind_eq_ok, run_pure_eq_ok, BlockHeader.exact_decode.run_eq_ok, true_and,
      exact_read_compact_size.run_eq_ok, (htx.decode_items _).run_eq_ok]
    constructor
    · rintro ⟨header, _, rfl, _, _, ⟨hle, rfl⟩, vtx, _, ⟨⟨rfl, htxs⟩, rfl⟩, rfl, rfl⟩
      exact ⟨⟨hle, htxs⟩, by simp⟩
    · rintro ⟨⟨hle, htxs⟩, rfl⟩
      exact ⟨block.header, _, by simp only [List.append_assoc], block.vtx.length, _, ⟨hle, rfl⟩, block.vtx, rest,
        ⟨⟨rfl, htxs⟩, rfl⟩, rfl, rfl⟩

end qubitcoin.block

namespace qubitcoin.validation

def encode_items {A : Type} (encode : A → Except Panic (List UInt8)) : List A → Except Panic (List UInt8)
  | [] => .ok []
  | a :: rest => do
    let bytes ← encode a
    let more ← encode_items encode rest
    pure (bytes ++ more)

def encode_counted {A : Type} (encode : A → Except Panic (List UInt8)) (items : List A) :
    Except Panic (List UInt8) := do
  let bytes ← encode_items encode items
  pure (write_compact_size items.length ++ bytes)

def decode_counted {A : Type} (decode : Decoder A) : Decoder (List A) := do
  let count ← read_compact_size
  decode_items decode count

def TxUndo.encode (self : TxUndo) : Except Panic (List UInt8) := encode_counted Coin.encode self.prev_coins

def BlockUndo.encode (self : BlockUndo) : Except Panic (List UInt8) := encode_counted TxUndo.encode self.tx_undo

variable (curve : Secp256k1)

def TxUndo.decode : Decoder TxUndo := do
  let prev_coins ← decode_counted (Coin.decode curve)
  pure { prev_coins }

def BlockUndo.decode : Decoder BlockUndo := do
  let tx_undo ← decode_counted (TxUndo.decode curve)
  pure { tx_undo }

/-- A value is written, and read back whatever follows it. -/
def ReadsBack {A : Type} (encode : A → Except Panic (List UInt8)) (decode : Decoder A) (a : A) : Prop :=
  ∃ bytes, encode a = .ok bytes ∧ ∀ rest, decode.run (bytes ++ rest) = .ok (a, rest)

theorem ReadsBack.items {A : Type} {encode : A → Except Panic (List UInt8)} {decode : Decoder A} {items : List A}
    (hitems : ∀ a ∈ items, ReadsBack encode decode a) :
    ∃ bytes, encode_items encode items = .ok bytes ∧
      ∀ rest, (decode_items decode items.length).run (bytes ++ rest) = .ok (items, rest) := by
  induction items with
  | nil => exact ⟨[], rfl, fun _ => rfl⟩
  | cons a items ih =>
    obtain ⟨first, hfirst, hread⟩ := hitems a List.mem_cons_self
    obtain ⟨more, hmore, hrest⟩ := ih fun b hmem => hitems b (List.mem_cons_of_mem a hmem)
    refine ⟨first ++ more, by simp [encode_items, hfirst, hmore, bind, Except.bind, pure, Except.pure], fun rest => ?_⟩
    rw [List.length_cons, decode_items, List.append_assoc, run_bind_of_ok (hread _), run_bind_of_ok (hrest rest)]
    rfl

theorem ReadsBack.counted {A : Type} {encode : A → Except Panic (List UInt8)} {decode : Decoder A} {items : List A}
    (hcount : items.length ≤ MAX_SIZE) (hitems : ∀ a ∈ items, ReadsBack encode decode a) :
    ReadsBack (encode_counted encode) (decode_counted decode) items := by
  obtain ⟨bytes, hbytes, hread⟩ := ReadsBack.items hitems
  refine ⟨write_compact_size items.length ++ bytes, by simp [encode_counted, hbytes, bind, Except.bind, pure, Except.pure],
    fun rest => ?_⟩
  have hsize : read_compact_size.run (write_compact_size items.length ++ (bytes ++ rest)) =
      .ok (items.length, bytes ++ rest) := exact_read_compact_size.run_eq_ok.mpr ⟨hcount, rfl⟩
  rw [List.append_assoc, decode_counted, run_bind_of_ok hsize, hread]

/-- A coin that its stored form keeps: a spendable output in range, at a height of 31 bits,
    that holds no key off the curve. -/
structure Coin.Storable (coin : Coin) : Prop where
  nonneg : 0 ≤ coin.tx_out.value
  in_range : coin.tx_out.value ≤ MAX_MONEY
  height : coin.height < 2 ^ 31
  spendable : coin.tx_out.script_pubkey.is_unspendable = false
  key : KeyOnCurve curve coin.tx_out.script_pubkey

theorem Coin.Storable.readsBack {coin : Coin} (hcoin : Coin.Storable curve coin) :
    ReadsBack Coin.encode (Coin.decode curve) coin := by
  have hread (rest : List UInt8) : ∃ bytes, coin.encode = .ok bytes ∧
      (Coin.decode curve).run (bytes ++ rest) = .ok (coin, rest) := by
    rw [Coin.decode_encode_iff curve hcoin.nonneg hcoin.in_range hcoin.height,
      read_write_compressed_script curve hcoin.spendable]
    exact hcoin.key
  obtain ⟨bytes, hencode, _⟩ := hread []
  refine ⟨bytes, hencode, fun rest => ?_⟩
  obtain ⟨same, hsame, hdecode⟩ := hread rest
  rw [hencode] at hsame
  cases hsame
  exact hdecode

structure BlockUndo.Storable (undo : BlockUndo) : Prop where
  count : undo.tx_undo.length ≤ MAX_SIZE
  counts : ∀ tx_undo ∈ undo.tx_undo, tx_undo.prev_coins.length ≤ MAX_SIZE
  coins : ∀ tx_undo ∈ undo.tx_undo, ∀ coin ∈ tx_undo.prev_coins, Coin.Storable curve coin

theorem BlockUndo.Storable.readsBack {undo : BlockUndo} (hundo : BlockUndo.Storable curve undo) :
    ReadsBack BlockUndo.encode (BlockUndo.decode curve) undo := by
  have htx : ∀ tx_undo ∈ undo.tx_undo, ReadsBack TxUndo.encode (TxUndo.decode curve) tx_undo := by
    intro tx_undo hmem
    obtain ⟨bytes, hencode, hread⟩ := ReadsBack.counted (hundo.counts tx_undo hmem) fun coin hcoin =>
      (hundo.coins tx_undo hmem coin hcoin).readsBack
    refine ⟨bytes, hencode, fun rest => ?_⟩
    rw [TxUndo.decode, run_bind_of_ok (hread rest)]
    rfl
  obtain ⟨bytes, hencode, hread⟩ := ReadsBack.counted hundo.count htx
  refine ⟨bytes, hencode, fun rest => ?_⟩
  rw [BlockUndo.decode, run_bind_of_ok (hread rest)]
  rfl

end qubitcoin.validation

/-! `qubitcoin-node/block_storage.rs`: blocks and undo data in flat files, and when the
    positions that are given out can be read. -/

open flatFile transition qubitcoin.validation qubitcoin.qubitcoind

namespace qubitcoin.block_storage

def MAX_BLOCKFILE_SIZE : Nat := 128 * 1024 * 1024

/-- The bytes in the files of the `blocks/` directory, by file number. A file that does not
    exist is empty. -/
structure Directory where
  blk : Int32 → List UInt8
  rev : Int32 → List UInt8

def Directory.append_block (self : Directory) (file_num : Int32) (bytes : List UInt8) : Directory :=
  { self with blk := extend self.blk file_num bytes }

def Directory.append_undo (self : Directory) (file_num : Int32) (bytes : List UInt8) : Directory :=
  { self with rev := extend self.rev file_num bytes }

structure BlockFileManager where
  data_dir : Directory
  current_file : Int32
  current_pos : Nat
  current_undo_pos : Nat

/-- A manager over what the directory holds. -/
def BlockFileManager.new (data_dir : Directory) : BlockFileManager := ⟨data_dir, 0, 0, 0⟩

namespace BlockFileManager

/-- Go on to a new file if the record does not fit. -/
def roll (self : BlockFileManager) (total_size : Nat) : BlockFileManager :=
  if MAX_BLOCKFILE_SIZE < self.current_pos + total_size ∧ 0 < self.current_pos then
    { self with current_file := self.current_file + 1, current_pos := 0, current_undo_pos := 0 }
  else self

/-- The bytes of a record that reach the file: all of them, or the first ones if the write
    fails. -/
def reached (record : List UInt8) : Option Nat → List UInt8
  | none => record
  | some n => record.take n

def total_size (block : Block) : Nat := 4 + 4 + block.encode.length

/-- Append a block to the current file. The position is that of the block after its frame. A
    write that fails gives no position and leaves the offset. -/
def append_block (self : BlockFileManager) (block : Block) (magic : Vector UInt8 4) (fault : Option Nat) :
    Option DiskBlockPos × BlockFileManager :=
  let serialized := block.encode
  let record := magic.toList ++ encode_u32 (UInt32.ofNat serialized.length) ++ serialized
  let data_dir := self.data_dir.append_block self.current_file (reached record fault)
  if fault.isSome then (none, { self with data_dir })
  else
    (some ⟨self.current_file, UInt32.ofNat (self.current_pos + 8)⟩,
      { self with data_dir, current_pos := self.current_pos + total_size block })

def write_block (self : BlockFileManager) (block : Block) (magic : Vector UInt8 4) (fault : Option Nat) :
    Option DiskBlockPos × BlockFileManager :=
  (self.roll (total_size block)).append_block block magic fault

/-- Append undo data to the file of the given number. A spent coin aborts the call before
    anything is written. -/
def write_undo (self : BlockFileManager) (file_num : Int32) (undo : BlockUndo) (fault : Option Nat) :
    Option DiskBlockPos × BlockFileManager :=
  match undo.encode with
  | .error _ => (none, self)
  | .ok serialized =>
    let record := encode_u32 (UInt32.ofNat serialized.length) ++ serialized
    let data_dir := self.data_dir.append_undo file_num (reached record fault)
    if fault.isSome then (none, { self with data_dir })
    else
      (some ⟨file_num, UInt32.ofNat (self.current_undo_pos + 4)⟩,
        { self with data_dir, current_undo_pos := self.current_undo_pos + 4 + serialized.length })

def read_block (self : BlockFileManager) (hash256 : List UInt8 → Uint256) (pos : DiskBlockPos) : Option Block :=
  if pos.file < 0 then none
  else
    match (Block.decode hash256).run ((self.data_dir.blk pos.file).drop pos.pos.toNat) with
    | .ok (block, _) => some block
    | .error _ => none

def read_undo (self : BlockFileManager) (curve : Secp256k1) (pos : DiskBlockPos) : Option BlockUndo :=
  if pos.file < 0 then none
  else
    match (BlockUndo.decode curve).run ((self.data_dir.rev pos.file).drop pos.pos.toNat) with
    | .ok (undo, _) => some undo
    | .error _ => none

end BlockFileManager

/-- A call on the manager, or a restart, which makes a new one over the same directory. -/
inductive Call where
  | write_block (block : Block) (magic : Vector UInt8 4) (fault : Option Nat)
  | write_undo (file_num : Int32) (undo : BlockUndo) (fault : Option Nat)
  | restart

/-- A manager with everything it has given a position to. -/
structure History where
  manager : BlockFileManager
  blocks : List (DiskBlockPos × Block)
  undos : List (DiskBlockPos × BlockUndo)

def History.new (data_dir : Directory) : History := ⟨.new data_dir, [], []⟩

def History.add_block (self : History) (block : Block) (outcome : Option DiskBlockPos × BlockFileManager) : History :=
  { self with manager := outcome.2, blocks := self.blocks ++ outcome.1.toList.map (·, block) }

def History.add_undo (self : History) (undo : BlockUndo) (outcome : Option DiskBlockPos × BlockFileManager) : History :=
  { self with manager := outcome.2, undos := self.undos ++ outcome.1.toList.map (·, undo) }

def History.apply (self : History) : Call → History
  | .write_block block magic fault => self.add_block block (self.manager.write_block block magic fault)
  | .write_undo file_num undo fault => self.add_undo undo (self.manager.write_undo file_num undo fault)
  | .restart => { self with manager := .new self.manager.data_dir }

section

variable (hash256 : List UInt8 → Uint256) (curve : Secp256k1)

/-- Every position reads back what was written there. -/
def History.Readable (self : History) : Prop :=
  (∀ pos block, (pos, block) ∈ self.blocks → self.manager.read_block hash256 pos = some block) ∧
    ∀ pos undo, (pos, undo) ∈ self.undos → self.manager.read_undo curve pos = some undo

/-- The offset that is kept in memory is the end of the file that a write goes to, the
    number of the file is not negative, and what is written has a stored form that is read
    back. A write that fails gives no position. -/
def InStep (self : BlockFileManager) : Call → Prop
  | .write_block block _ none =>
    let self := self.roll (BlockFileManager.total_size block)
    (self.data_dir.blk self.current_file).length = self.current_pos ∧ 0 ≤ self.current_file ∧
      Block.Sendable hash256 block
  | .write_undo file_num undo none =>
    (self.data_dir.rev file_num).length = self.current_undo_pos ∧ self.current_undo_pos + 4 < 2 ^ 32 ∧
      0 ≤ file_num ∧ BlockUndo.Storable curve undo
  | _ => True

/-- What the files hold of the records that have a position. -/
structure History.Kept (history : History) : Prop where
  blocks : ∀ pos block, (pos, block) ∈ history.blocks → 0 ≤ pos.file ∧ Block.Sendable hash256 block ∧
    Holds (history.manager.data_dir.blk pos.file) pos.pos.toNat block.encode
  undos : ∀ pos undo, (pos, undo) ∈ history.undos → 0 ≤ pos.file ∧ ∃ bytes,
    (∀ rest, (BlockUndo.decode curve).run (bytes ++ rest) = .ok (undo, rest)) ∧
      Holds (history.manager.data_dir.rev pos.file) pos.pos.toNat bytes

variable {hash256 curve}

theorem History.Kept.readable {self : History} (hkept : self.Kept hash256 curve) : self.Readable hash256 curve := by
  constructor
  · intro pos block hmem
    obtain ⟨hfile, hsend, hholds⟩ := hkept.blocks pos block hmem
    obtain ⟨rest, hdrop⟩ := hholds.drop
    have hread : (Block.decode hash256).run (block.encode ++ rest) = .ok (block, rest) :=
      (Block.exact_decode hash256).run_eq_ok.mpr ⟨hsend, rfl⟩
    rw [BlockFileManager.read_block, if_neg (Int32.not_lt.mpr hfile), hdrop, hread]
  · intro pos undo hmem
    obtain ⟨hfile, bytes, hread, hholds⟩ := hkept.undos pos undo hmem
    obtain ⟨rest, hdrop⟩ := hholds.drop
    rw [BlockFileManager.read_undo, if_neg (Int32.not_lt.mpr hfile), hdrop, hread rest]

theorem BlockFileManager.roll_data_dir (self : BlockFileManager) (total : Nat) :
    (self.roll total).data_dir = self.data_dir := by
  unfold roll
  split <;> rfl

theorem BlockFileManager.roll_pos_le (self : BlockFileManager) (total : Nat) :
    (self.roll total).current_pos ≤ MAX_BLOCKFILE_SIZE := by
  unfold roll
  split
  · exact Nat.zero_le _
  · next h => omega

/-- What a directory holds, a later one holds at the same positions. -/
structure Directory.Grows (before after : Directory) : Prop where
  blk : ∀ {file pos record}, Holds (before.blk file) pos record → Holds (after.blk file) pos record
  rev : ∀ {file pos record}, Holds (before.rev file) pos record → Holds (after.rev file) pos record

theorem Directory.grows_append_block (self : Directory) (file_num : Int32) (bytes : List UInt8) :
    self.Grows (self.append_block file_num bytes) :=
  ⟨fun h => h.extend file_num bytes, fun h => h⟩

theorem Directory.grows_append_undo (self : Directory) (file_num : Int32) (bytes : List UInt8) :
    self.Grows (self.append_undo file_num bytes) :=
  ⟨fun h => h, fun h => h.extend file_num bytes⟩

theorem toNat_pos {pos : Nat} (h : pos < 2 ^ 32) : (UInt32.ofNat pos).toNat = pos :=
  UInt32.toNat_ofNat_of_lt' h

theorem Directory.append_block_holds (self : Directory) (file_num : Int32) (front record : List UInt8) :
    Holds ((self.append_block file_num (front ++ record)).blk file_num) ((self.blk file_num).length + front.length)
      record := by
  have hholds := holds_append (self.blk file_num) front record
  rwa [← extend_self self.blk] at hholds

theorem Directory.append_undo_holds (self : Directory) (file_num : Int32) (front record : List UInt8) :
    Holds ((self.append_undo file_num (front ++ record)).rev file_num) ((self.rev file_num).length + front.length)
      record := by
  have hholds := holds_append (self.rev file_num) front record
  rwa [← extend_self self.rev] at hholds

namespace BlockFileManager

theorem write_block_grows (self : BlockFileManager) (block : Block) (magic : Vector UInt8 4) (fault : Option Nat) :
    self.data_dir.Grows (self.write_block block magic fault).2.data_dir := by
  rw [← self.roll_data_dir (total_size block), write_block]
  generalize self.roll (total_size block) = rolled
  cases fault with
  | some n => exact rolled.data_dir.grows_append_block _ _
  | none => exact rolled.data_dir.grows_append_block _ _

theorem write_block_holds (self : BlockFileManager) {block : Block} {magic : Vector UInt8 4} {fault : Option Nat}
    (hstep : InStep hash256 curve self (.write_block block magic fault)) {pos : DiskBlockPos}
    (hpos : (self.write_block block magic fault).1 = some pos) :
    0 ≤ pos.file ∧ Block.Sendable hash256 block ∧
      Holds ((self.write_block block magic fault).2.data_dir.blk pos.file) pos.pos.toNat block.encode := by
  have hle := self.roll_pos_le (total_size block)
  unfold write_block at hpos ⊢
  cases fault with
  | some n =>
    generalize self.roll (total_size block) = rolled at hpos
    cases hpos
  | none =>
    simp only [InStep] at hstep
    generalize self.roll (total_size block) = rolled at hle hpos hstep ⊢
    obtain ⟨hend, hfile, hsend⟩ := hstep
    cases hpos
    refine ⟨hfile, hsend, ?_⟩
    have hframe : (magic.toList ++ encode_u32 (UInt32.ofNat block.encode.length)).length = 8 := by
      simp [encode_u32]
    have hholds := rolled.data_dir.append_block_holds rolled.current_file
      (magic.toList ++ encode_u32 (UInt32.ofNat block.encode.length)) block.encode
    have hlt : rolled.current_pos + 8 < 2 ^ 32 := by
      unfold MAX_BLOCKFILE_SIZE at hle
      omega
    rw [hframe, hend, ← toNat_pos hlt] at hholds
    exact hholds

theorem write_undo_grows (self : BlockFileManager) (file_num : Int32) (undo : BlockUndo) (fault : Option Nat) :
    self.data_dir.Grows (self.write_undo file_num undo fault).2.data_dir := by
  unfold write_undo
  split
  · exact ⟨id, id⟩
  · cases fault with
    | some n => exact self.data_dir.grows_append_undo _ _
    | none => exact self.data_dir.grows_append_undo _ _

theorem write_undo_holds (self : BlockFileManager) {file_num : Int32} {undo : BlockUndo} {fault : Option Nat}
    (hstep : InStep hash256 curve self (.write_undo file_num undo fault)) {pos : DiskBlockPos}
    (hpos : (self.write_undo file_num undo fault).1 = some pos) :
    0 ≤ pos.file ∧ ∃ bytes, (∀ rest, (BlockUndo.decode curve).run (bytes ++ rest) = .ok (undo, rest)) ∧
      Holds ((self.write_undo file_num undo fault).2.data_dir.rev pos.file) pos.pos.toNat bytes := by
  cases hencode : undo.encode with
  | error e =>
    rw [write_undo, hencode] at hpos
    cases hpos
  | ok serialized =>
    rw [write_undo, hencode] at hpos ⊢
    cases fault with
    | some n => cases hpos
    | none =>
      obtain ⟨hend, hlt, hfile, hstorable⟩ := hstep
      cases hpos
      obtain ⟨bytes, hbytes, hread⟩ := hstorable.readsBack
      obtain rfl : bytes = serialized := Except.ok.inj (hbytes.symm.trans hencode)
      refine ⟨hfile, bytes, hread, ?_⟩
      have hframe : (encode_u32 (UInt32.ofNat bytes.length)).length = 4 := by simp [encode_u32]
      have hholds := self.data_dir.append_undo_holds file_num (encode_u32 (UInt32.ofNat bytes.length)) bytes
      rw [hframe, hend, ← toNat_pos hlt] at hholds
      exact hholds

end BlockFileManager

theorem History.Kept.apply {self : History} (hkept : self.Kept hash256 curve) {call : Call}
    (hstep : InStep hash256 curve self.manager call) : (self.apply call).Kept hash256 curve := by
  cases call with
  | write_block block magic fault =>
    have hgrows := self.manager.write_block_grows block magic fault
    have hholds (pos : DiskBlockPos) (hpos : (self.manager.write_block block magic fault).1 = some pos) :=
      self.manager.write_block_holds hstep hpos
    change (self.add_block block (self.manager.write_block block magic fault)).Kept hash256 curve
    generalize self.manager.write_block block magic fault = outcome at hgrows hholds ⊢
    refine ⟨fun pos stored hmem => ?_, fun pos undo hmem => ?_⟩
    · obtain hold | hnew := List.mem_append.mp hmem
      · obtain ⟨hfile, hsend, hthere⟩ := hkept.blocks pos stored hold
        exact ⟨hfile, hsend, hgrows.blk hthere⟩
      · obtain ⟨_, hpos, heq⟩ := List.mem_map.mp hnew
        cases heq
        exact hholds pos (Option.mem_toList.mp hpos)
    · obtain ⟨hfile, bytes, hread, hthere⟩ := hkept.undos pos undo hmem
      exact ⟨hfile, bytes, hread, hgrows.rev hthere⟩
  | write_undo file_num undo fault =>
    have hgrows := self.manager.write_undo_grows file_num undo fault
    have hholds (pos : DiskBlockPos) (hpos : (self.manager.write_undo file_num undo fault).1 = some pos) :=
      self.manager.write_undo_holds hstep hpos
    change (self.add_undo undo (self.manager.write_undo file_num undo fault)).Kept hash256 curve
    generalize self.manager.write_undo file_num undo fault = outcome at hgrows hholds ⊢
    refine ⟨fun pos block hmem => ?_, fun pos stored hmem => ?_⟩
    · obtain ⟨hfile, hsend, hthere⟩ := hkept.blocks pos block hmem
      exact ⟨hfile, hsend, hgrows.blk hthere⟩
    · obtain hold | hnew := List.mem_append.mp hmem
      · obtain ⟨hfile, bytes, hread, hthere⟩ := hkept.undos pos stored hold
        exact ⟨hfile, bytes, hread, hgrows.rev hthere⟩
      · obtain ⟨_, hpos, heq⟩ := List.mem_map.mp hnew
        cases heq
        exact hholds pos (Option.mem_toList.mp hpos)
  | restart => exact ⟨hkept.blocks, hkept.undos⟩

variable (hash256 curve)

/-- In a run over any directory in which each write finds the end of its file where the
    manager expects it, every position reads back what was written there. -/
theorem positions_readable (data_dir : Directory) {calls : List Call} {history : History}
    (hrun : Trace (fun s call t => InStep hash256 curve s.manager call ∧ t = s.apply call) (.new data_dir) calls
      history) : history.Readable hash256 curve := by
  have hkept : history.Kept hash256 curve := by
    refine hrun.invariant (History.Kept hash256 curve) ?_ ⟨nofun, nofun⟩
    rintro s call _ hs ⟨hstep, rfl⟩
    exact hs.apply hstep
  exact hkept.readable

end

def empty_directory : Directory := ⟨fun _ => [], fun _ => []⟩

/-- The offsets are the ends of the current files, and there are no later files. -/
structure BlockFileManager.InSync (manager : BlockFileManager) : Prop where
  block_end : (manager.data_dir.blk manager.current_file).length = manager.current_pos
  undo_end : (manager.data_dir.rev manager.current_file).length = manager.current_undo_pos
  later : ∀ file, manager.current_file < file → manager.data_dir.blk file = [] ∧ manager.data_dir.rev file = []

theorem BlockFileManager.inSync_new : (new empty_directory).InSync := ⟨rfl, rfl, fun _ _ => ⟨rfl, rfl⟩⟩

theorem BlockFileManager.InSync.roll {self : BlockFileManager} (hsync : self.InSync) (total : Nat)
    (hfile : self.current_file < Int32.maxValue) : (self.roll total).InSync := by
  have hnext : self.current_file < self.current_file + 1 := by
    rw [Int32.lt_iff_toInt_lt] at hfile ⊢
    rw [Int32.toInt_add]
    have := self.current_file.le_toInt
    have hmax : Int32.maxValue.toInt = 2 ^ 31 - 1 := rfl
    rw [show (1 : Int32).toInt = 1 from rfl, Int.bmod_eq_of_le (by omega) (by omega)]
    omega
  unfold BlockFileManager.roll
  split
  · obtain ⟨hblk, hrev⟩ := hsync.later _ hnext
    exact ⟨by simp [hblk], by simp [hrev], fun file hlt => hsync.later file (Int32.lt_trans hnext hlt)⟩
  · exact hsync

theorem BlockFileManager.InSync.write_block {self : BlockFileManager} (hsync : self.InSync) (block : Block)
    (magic : Vector UInt8 4) (hfile : self.current_file < Int32.maxValue) :
    (self.write_block block magic none).2.InSync := by
  have hrolled := hsync.roll (total_size block) hfile
  unfold BlockFileManager.write_block
  generalize self.roll (total_size block) = rolled at hrolled ⊢
  refine ⟨?_, hrolled.undo_end, fun file hlt => ⟨?_, (hrolled.later file hlt).2⟩⟩
  · change (extend rolled.data_dir.blk rolled.current_file _ rolled.current_file).length = _
    rw [extend_self, List.length_append, hrolled.block_end]
    simp [append_block, reached, encode_u32, total_size]
    omega
  · have hafter : rolled.current_file < file := hlt
    change extend rolled.data_dir.blk rolled.current_file _ file = []
    rw [extend_of_ne _ (Int32.ne_of_lt hafter).symm, (hrolled.later file hafter).1]

theorem BlockFileManager.InSync.write_undo {self : BlockFileManager} (hsync : self.InSync) (undo : BlockUndo) :
    (self.write_undo self.current_file undo none).2.InSync := by
  unfold BlockFileManager.write_undo
  split
  · exact hsync
  · next serialized _ =>
    refine ⟨hsync.block_end, ?_, fun file hlt => ⟨(hsync.later file hlt).1, ?_⟩⟩
    · change (extend self.data_dir.rev self.current_file _ self.current_file).length = _
      rw [extend_self, List.length_append, hsync.undo_end]
      simp [reached, encode_u32]
      omega
    · have hafter : self.current_file < file := hlt
      change extend self.data_dir.rev self.current_file _ file = []
      rw [extend_of_ne _ (Int32.ne_of_lt hafter).symm, (hsync.later file hafter).2]

section

variable (hash256 : List UInt8 → Uint256) (curve : Secp256k1)

/-- A call as the node makes it between two starts: the write succeeds, and undo data goes to
    the current file. -/
def Orderly (self : BlockFileManager) : Call → Prop
  | .write_block block _ none => self.current_file < Int32.maxValue ∧ Block.Sendable hash256 block
  | .write_undo file_num undo none =>
    file_num = self.current_file ∧ self.current_undo_pos + 4 < 2 ^ 32 ∧ BlockUndo.Storable curve undo
  | _ => False

variable {hash256 curve}

theorem BlockFileManager.roll_current_file {self : BlockFileManager} (total : Nat) (hfile : 0 ≤ self.current_file)
    (hmax : self.current_file < Int32.maxValue) : 0 ≤ (self.roll total).current_file := by
  unfold roll
  split
  · rw [Int32.le_iff_toInt_le] at hfile ⊢
    rw [Int32.lt_iff_toInt_lt] at hmax
    have hvalue : Int32.maxValue.toInt = 2 ^ 31 - 1 := rfl
    have hzero : (0 : Int32).toInt = 0 := rfl
    rw [Int32.toInt_add, show (1 : Int32).toInt = 1 from rfl, Int.bmod_eq_of_le (by omega) (by omega)]
    omega
  · exact hfile

theorem BlockFileManager.write_block_current_file (self : BlockFileManager) (block : Block) (magic : Vector UInt8 4) :
    (self.write_block block magic none).2.current_file = (self.roll (total_size block)).current_file := by
  unfold write_block
  generalize self.roll (total_size block) = rolled
  rfl

theorem Orderly.step {s : History} {call : Call} (horderly : Orderly hash256 curve s.manager call)
    (hsync : s.manager.InSync) (hfile : 0 ≤ s.manager.current_file) :
    InStep hash256 curve s.manager call ∧ (s.apply call).manager.InSync ∧ 0 ≤ (s.apply call).manager.current_file := by
  cases call with
  | write_block block magic fault =>
    cases fault with
    | some n => exact horderly.elim
    | none =>
      obtain ⟨hmax, hsend⟩ := horderly
      have hrolled := BlockFileManager.roll_current_file (BlockFileManager.total_size block) hfile hmax
      refine ⟨⟨(hsync.roll _ hmax).block_end, hrolled, hsend⟩, hsync.write_block block magic hmax, ?_⟩
      change 0 ≤ (s.manager.write_block block magic none).2.current_file
      rwa [BlockFileManager.write_block_current_file]
  | write_undo file_num undo fault =>
    cases fault with
    | some n => exact horderly.elim
    | none =>
      obtain ⟨rfl, hlt, hstorable⟩ := horderly
      refine ⟨⟨hsync.undo_end, hlt, hfile, hstorable⟩, hsync.write_undo undo, ?_⟩
      change 0 ≤ (s.manager.write_undo s.manager.current_file undo none).2.current_file
      unfold BlockFileManager.write_undo
      split <;> exact hfile
  | restart => exact horderly.elim

/-- Over an empty directory, and until the next start, every position reads back what was written
    there: the offsets of the manager stay the ends of its files. -/
theorem orderly_readable {calls : List Call} {history : History}
    (hrun : Trace (fun s call t => Orderly hash256 curve s.manager call ∧ t = s.apply call) (.new empty_directory) calls
      history) : history.Readable hash256 curve ∧ history.manager.InSync := by
  have hkept : history.Kept hash256 curve ∧ history.manager.InSync ∧ 0 ≤ history.manager.current_file := by
    refine hrun.invariant (fun s => s.Kept hash256 curve ∧ s.manager.InSync ∧ 0 ≤ s.manager.current_file) ?_
      ⟨⟨nofun, nofun⟩, BlockFileManager.inSync_new, Int32.le_refl 0⟩
    rintro s call _ ⟨hs, hsync, hfile⟩ ⟨horderly, rfl⟩
    obtain ⟨hstep, hnext, hcurrent⟩ := horderly.step hsync hfile
    exact ⟨hs.apply hstep, hnext, hcurrent⟩
  exact ⟨hkept.1.readable, hkept.2.1⟩

end

def stored_block (nonce : UInt32) : Block :=
  ⟨⟨1, 0, 0, 1231006505, 0x207fffff, nonce⟩,
    [.new crypto.sha256d 1 [⟨.null, ⟨[0x04, 0xff]⟩, SEQUENCE_FINAL, .new⟩] [⟨5000000000, ⟨[0x76, 0xa9]⟩⟩] 0]⟩

theorem magic_size : #[0xf9, 0xbe, 0xb4, (0xd9 : UInt8)].size = 4 := rfl

def mainnet_magic : Vector UInt8 4 := ⟨#[0xf9, 0xbe, 0xb4, 0xd9], magic_size⟩

theorem stored_block_sendable (nonce : UInt32) : Block.Sendable crypto.sha256d (stored_block nonce) := by
  have hcount : 1 ≤ MAX_SIZE := by decide
  refine ⟨hcount, fun tx hmem => ?_⟩
  obtain rfl := List.mem_singleton.mp hmem
  refine ⟨rfl, .inl (by decide), by decide, ?_, by decide, ?_⟩
  · intro input hmem
    obtain rfl := List.mem_singleton.mp hmem
    decide
  · intro output hmem
    obtain rfl := List.mem_singleton.mp hmem
    decide

def stored_undo : BlockUndo := ⟨[⟨[coin_of_key generator_x generator_y]⟩]⟩

theorem stored_undo_storable : BlockUndo.Storable generator_curve stored_undo := by
  refine ⟨by decide, fun tx_undo hmem => ?_, fun tx_undo hmem coin hcoin => ?_⟩
  · obtain rfl := List.mem_singleton.mp hmem
    decide
  · obtain rfl := List.mem_singleton.mp hmem
    obtain rfl := List.mem_singleton.mp hcoin
    exact ⟨by decide, by decide, by decide, by decide, fun _ => ⟨rfl, rfl⟩⟩

/-- The first block of a new directory and its undo data. -/
def first_writes : List Call := [.write_block (stored_block 0) mainnet_magic none, .write_undo 0 stored_undo none]

theorem positions_readable_first_writes :
    (first_writes.foldl History.apply (.new empty_directory)).blocks = [(⟨0, 8⟩, stored_block 0)] ∧
      (first_writes.foldl History.apply (.new empty_directory)).undos = [(⟨0, 4⟩, stored_undo)] ∧
      (first_writes.foldl History.apply (.new empty_directory)).Readable crypto.sha256d generator_curve := by
  refine ⟨by decide +kernel, by decide +kernel, @positions_readable _ _ empty_directory first_writes _ ?_⟩
  refine .cons ⟨?_, rfl⟩ (.cons ⟨?_, rfl⟩ (.nil _))
  · exact ⟨by decide +kernel, by decide +kernel, stored_block_sendable 0⟩
  · exact ⟨by decide +kernel, by decide +kernel, by decide +kernel, stored_undo_storable⟩

theorem orderly_readable_first_writes :
    (first_writes.foldl History.apply (.new empty_directory)).Readable crypto.sha256d generator_curve ∧
      (first_writes.foldl History.apply (.new empty_directory)).manager.InSync := by
  refine @orderly_readable _ _ first_writes _ (.cons ⟨?_, rfl⟩ (.cons ⟨?_, rfl⟩ (.nil _)))
  · exact ⟨by decide +kernel, stored_block_sendable 0⟩
  · exact ⟨by decide +kernel, by decide +kernel, stored_undo_storable⟩

/-- After a restart the manager takes the start of the first file for its end: the position
    of the next block reads back the block before the restart. -/
theorem positions_readable_fails :
    ¬ ([.write_block (stored_block 0) mainnet_magic none, .restart,
        .write_block (stored_block 1) mainnet_magic none].foldl History.apply
        (.new empty_directory)).Readable crypto.sha256d generator_curve := by
  intro hreadable
  have hread := hreadable.1 ⟨0, 8⟩ (stored_block 1) (by decide +kernel)
  revert hread
  decide +kernel

end qubitcoin.block_storage
