import Qubitcoin.Storage.BlockFiles
import Qubitcoin.Validation.AcceptedChain

/-! Blocks that are connected and written to the files with their undo data. What the files give
    back takes the coins to where they were before the blocks. -/

open qubitcoin primitives serialize script transaction block coins params check validation_state
  transition

namespace qubitcoin.validation

variable (curve : Secp256k1)

/-- Every coin of a map has a stored form that keeps it. -/
def StorableCoins (coins : CoinsMap) : Prop :=
  ∀ outpoint coin, coins outpoint = some coin → Coin.Storable curve coin

/-- A transaction at a height of 31 bits that pays to no key off the curve. -/
structure PlacedTx.Keyed (placed : PlacedTx) : Prop where
  height_nonneg : 0 ≤ placed.height
  height_lt : placed.height < 2 ^ 31
  keys : ∀ output ∈ placed.tx.vout, KeyOnCurve curve output.script_pubkey

/-- A connected block that came in its wire form, and of whose transactions that is true. -/
structure ConnectedBlock.Keyed (hash256 : List UInt8 → Uint256) (step : ConnectedBlock) : Prop where
  sendable : Block.Sendable hash256 step.block
  txs : ∀ placed ∈ placed_txs step.height step.block.vtx, placed.Keyed curve

variable {curve}

theorem StorableCoins.spendable {coins : CoinsMap} (hcoins : StorableCoins curve coins) : Spendable coins :=
  fun outpoint coin hcoin => (hcoins outpoint coin hcoin).spendable

theorem as_u32_lt {height : Int} (hnonneg : 0 ≤ height) (hlt : height < 2 ^ 31) : as_u32 height < 2 ^ 31 := by
  rw [UInt32.lt_iff_toNat_lt, toNat_as_u32 hnonneg (by omega)]
  have hbound : (2 ^ 31 : UInt32).toNat = 2 ^ 31 := by decide
  omega

theorem Applies.storable {coins after : CoinsMap} {placed : PlacedTx} (happlies : Applies coins placed after)
    (hkeyed : placed.Keyed curve) (hcoins : StorableCoins curve coins) : StorableCoins curve after := by
  intro outpoint coin hsome
  obtain hold | ⟨output, hmem, hspendable, rfl⟩ := happlies.source hsome
  · exact hcoins outpoint coin hold
  · have houtput := outpoints_output hmem
    obtain ⟨hnonneg, hle⟩ := money_range_iff.mp (happlies.checked.values output houtput)
    exact ⟨hnonneg, hle, as_u32_lt hkeyed.height_nonneg hkeyed.height_lt, hspendable, hkeyed.keys output houtput⟩

theorem applied_storable {coins after : CoinsMap} {txs : List PlacedTx} (hrun : Trace Applies coins txs after)
    (hkeyed : ∀ placed ∈ txs, placed.Keyed curve) (hcoins : StorableCoins curve coins) : StorableCoins curve after :=
  hrun.invariant_of_mem (StorableCoins curve) (fun hmem hmid happlies => happlies.storable (hkeyed _ hmem) hmid) hcoins

theorem tx_undo_storable {coins : CoinsMap} (hcoins : StorableCoins curve coins) {ctx : ConnectContext}
    {tx : Transaction} {totals after : ConnectTotals}
    (hcheck : check_connect_tx ctx tx (input_coins coins tx) totals = .ok after) :
    (tx_undo tx (input_coins coins tx)).length ≤ 1 ∧ ∀ record ∈ tx_undo tx (input_coins coins tx),
      record.prev_coins.length = tx.vin.length ∧ ∀ coin ∈ record.prev_coins, Coin.Storable curve coin := by
  cases hcoinbase : tx.is_coinbase with
  | true =>
    unfold tx_undo
    rw [hcoinbase, if_pos rfl]
    exact ⟨Nat.zero_le 1, nofun⟩
  | false =>
    obtain ⟨spent, hundo, hlength, hspent⟩ := spent_coins_of_check hcoinbase hcheck
    rw [hundo]
    refine ⟨le_rfl, fun record hmem => ?_⟩
    obtain rfl := List.mem_singleton.mp hmem
    refine ⟨hlength, fun coin hcoin => ?_⟩
    have hzip : coin ∈ (tx.vin.zip spent).map Prod.snd := by
      rw [List.map_snd_zip hlength.le]
      exact hcoin
    obtain ⟨pair, hpair, rfl⟩ := List.mem_map.mp hzip
    exact hcoins _ _ (hspent pair hpair).1

theorem connect_txs_storable {ctx : ConnectContext} {txs : List Transaction} :
    ∀ {totals after_totals : ConnectTotals} {records : List TxUndo} {view after : CoinsViewCache},
      view.Coherent → (∀ tx ∈ txs, Checked tx) → CreatesFresh (as_u32 ctx.height) view.visible txs →
      (∀ placed ∈ placed_txs ctx.height txs, placed.Keyed curve) → (∀ tx ∈ txs, tx.vin.length ≤ MAX_SIZE) →
      StorableCoins curve view.visible → connect_txs ctx txs totals view = (.ok (after_totals, records), after) →
      records.length ≤ txs.length ∧ ∀ record ∈ records, record.prev_coins.length ≤ MAX_SIZE ∧
        ∀ coin ∈ record.prev_coins, Coin.Storable curve coin := by
  induction txs with
  | nil =>
    intro totals after_totals records view after _ _ _ _ _ _ hconnect
    cases hconnect
    exact ⟨le_rfl, nofun⟩
  | cons tx rest ih =>
    intro totals after_totals records view after hcoherent hchecked hfresh hkeyed hsized hcoins hconnect
    obtain ⟨mid_totals, first, mid, others, hfirst, hrest, rfl⟩ := connect_txs_cons_ok.mp hconnect
    obtain ⟨happlies, hmid⟩ := connect_tx_applies hcoherent (hchecked tx List.mem_cons_self) hfresh.1 hfirst
    have hvisible := happlies.applied
    obtain ⟨hcount, hrecords⟩ := ih hmid (fun other hmem => hchecked other (List.mem_cons_of_mem tx hmem))
      (hvisible ▸ hfresh.2) (fun placed hmem => hkeyed placed (List.mem_cons_of_mem _ hmem))
      (fun other hmem => hsized other (List.mem_cons_of_mem tx hmem))
      (happlies.storable (hkeyed _ List.mem_cons_self) hcoins) hrest
    obtain ⟨hcheck, rfl⟩ := connect_tx_checked hfirst
    obtain ⟨hone, hfirst_records⟩ := tx_undo_storable hcoins hcheck
    constructor
    · rw [List.length_append, List.length_cons]
      omega
    · intro record hmem
      obtain hmem | hmem := List.mem_append.mp hmem
      · obtain ⟨hlength, hstorable⟩ := hfirst_records record hmem
        exact ⟨hlength ▸ hsized tx List.mem_cons_self, hstorable⟩
      · exact hrecords record hmem

variable {env : Env} {params : ConsensusParams}

theorem AcceptsAll.storable {view after : CoinsViewCache} {steps : List ConnectedBlock}
    (haccepts : AcceptsAll env params view steps after) (hcoherent : view.Coherent)
    (hkeyed : ∀ step ∈ steps, step.Keyed curve env.hash256) (hcoins : StorableCoins curve view.visible) :
    StorableCoins curve after.visible ∧ ∀ step ∈ steps, BlockUndo.Storable curve step.undo := by
  induction haccepts with
  | nil view => exact ⟨hcoins, nofun⟩
  | @cons view mid after step rest check_merkle_root skip_scripts mtp_at_height hcheck hfree hconnect _ ih =>
    have hstep := hkeyed step List.mem_cons_self
    have hblock := check_block_ok env hcheck
    have hchecked := hblock.checked
    obtain ⟨totals, _, hloop, _⟩ := connect_block_ok env hconnect
    have hreads := prepared_view_reads env step.block step.height params view
    have hfresh : CreatesFresh (as_u32 step.height) view.visible step.block.vtx :=
      creates_fresh_of_free hblock.txids_nodup (free_of_accepted env hfree hconnect)
    rw [← hreads.visible] at hfresh hcoins
    obtain ⟨hmid, hrun⟩ := connect_txs_trace (hreads.coherent hcoherent) hchecked hfresh hloop
    have hsized : ∀ tx ∈ step.block.vtx, tx.vin.length ≤ MAX_SIZE :=
      fun tx hmem => (hstep.sendable.txs tx hmem).sized.vin_length
    obtain ⟨hcount, hrecords⟩ :=
      connect_txs_storable (hreads.coherent hcoherent) hchecked hfresh hstep.txs hsized hcoins hloop
    obtain ⟨hafter, hundos⟩ := ih hmid (fun other hmem => hkeyed other (List.mem_cons_of_mem step hmem))
      (applied_storable hrun hstep.txs hcoins)
    refine ⟨hafter, fun other hmem => ?_⟩
    obtain rfl | hmem := List.mem_cons.mp hmem
    · exact ⟨hcount.trans hstep.sendable.count, fun record hmem => (hrecords record hmem).1,
        fun record hmem => (hrecords record hmem).2⟩
    · exact hundos other hmem

theorem AcceptsAll.connects {view after : CoinsViewCache} {steps : List ConnectedBlock}
    (haccepts : AcceptsAll env params view steps after) :
    ConnectsAll env params view steps after ∧ ∀ step ∈ steps, CoinbaseFirst step.block.vtx := by
  induction haccepts with
  | nil view => exact ⟨.nil view, nofun⟩
  | @cons view mid after step rest check_merkle_root skip_scripts mtp_at_height hcheck hfree hconnect _ ih =>
    have hblock := check_block_ok env hcheck
    have hfresh : CreatesFresh (as_u32 step.height) view.visible step.block.vtx :=
      creates_fresh_of_free hblock.txids_nodup (free_of_accepted env hfree hconnect)
    obtain ⟨hconnects, hshapes⟩ := ih
    refine ⟨.cons hfresh hconnect hconnects, fun other hmem => ?_⟩
    obtain rfl | hmem := List.mem_cons.mp hmem
    · exact hblock.coinbase_first
    · exact hshapes other hmem

end qubitcoin.validation

/-! The recovery from the files. -/

open qubitcoin.validation qubitcoin.qubitcoind

namespace qubitcoin.block_storage

/-- The fields of a block index entry that the recovery uses. -/
structure Entry where
  height : Int
  file : Int32
  data_pos : UInt32
  undo_pos : UInt32

def Entry.disk_pos (self : Entry) : DiskBlockPos := ⟨self.file, self.data_pos⟩
def Entry.undo_disk_pos (self : Entry) : DiskBlockPos := ⟨self.file, self.undo_pos⟩

variable (hash256 : List UInt8 → Uint256) (curve : Secp256k1)

/-- The loop of the recovery over the entries above the best block of the coins, from the tip
    down. An entry whose block or undo data cannot be read is skipped. -/
def disconnect_entries (block_files : BlockFileManager) : List Entry → CoinsViewCache → Except Panic CoinsViewCache
  | [], view => .ok view
  | entry :: rest, view =>
    match block_files.read_block hash256 entry.disk_pos with
    | none => disconnect_entries block_files rest view
    | some blk =>
      match block_files.read_undo curve entry.undo_disk_pos with
      | none => disconnect_entries block_files rest view
      | some undo => do
        let (_, view) ← disconnect_block blk entry.height view undo
        disconnect_entries block_files rest view

/-- The entry leads to a connected block and its undo data. -/
structure Entry.Reads (block_files : BlockFileManager) (entry : Entry) (step : ConnectedBlock) : Prop where
  height : entry.height = step.height
  block : block_files.read_block hash256 entry.disk_pos = some step.block
  undo : block_files.read_undo curve entry.undo_disk_pos = some step.undo

variable {hash256 curve}

theorem disconnect_entries_eq_rewind {block_files : BlockFileManager} {entries : List Entry} {steps : List ConnectedBlock}
    (hreads : List.Forall₂ (Entry.Reads hash256 curve block_files) entries steps) :
    ∀ view, disconnect_entries hash256 curve block_files entries view = (rewind_blocks steps view).map Prod.snd := by
  induction hreads with
  | nil => exact fun view => rfl
  | @cons entry step entries steps hentry _ ih =>
    intro view
    unfold disconnect_entries rewind_blocks
    rw [hentry.block, hentry.undo, hentry.height]
    dsimp only
    cases disconnect_block step.block step.height view step.undo with
    | error why => rfl
    | ok result =>
      obtain ⟨result, mid⟩ := result
      dsimp only [bind, Except.bind]
      rw [ih mid]
      cases rewind_blocks steps mid <;> rfl

variable (hash256 curve)

/-- The condition of a write without that on what is written: the offset kept in memory is the
    end of the file. -/
def InPlace (self : BlockFileManager) : Call → Prop
  | .write_undo file_num _ none =>
    (self.data_dir.rev file_num).length = self.current_undo_pos ∧ self.current_undo_pos + 4 < 2 ^ 32 ∧ 0 ≤ file_num
  | call => InStep hash256 curve self call

variable {hash256 curve}

theorem InPlace.in_step {self : BlockFileManager} {call : Call} (hplace : InPlace hash256 curve self call)
    (hundo : ∀ file_num undo fault, call = .write_undo file_num undo fault → BlockUndo.Storable curve undo) :
    InStep hash256 curve self call := by
  cases call with
  | write_block block magic fault => exact hplace
  | restart => exact hplace
  | write_undo file_num undo fault =>
    cases fault with
    | some n => exact hplace
    | none =>
      obtain ⟨hend, hlt, hfile⟩ := hplace
      exact ⟨hend, hlt, hfile, hundo file_num undo none rfl⟩

/-- Blocks are accepted on top of each other, and the files are given each block and its undo
    data, between other blocks and restarts. Any view that shows the coins after some of the
    blocks is taken to the coins from before them all by what the entries read back. -/
theorem recovery_restores {env : Env} {params : ConsensusParams} {view mid after : CoinsViewCache}
    {first later : List ConnectedBlock} {data_dir : Directory} {calls : List Call} {history : History}
    {entries : List Entry} (hcoherent : view.Coherent) (hcoins : StorableCoins curve view.visible)
    (hfirst : AcceptsAll env params view first mid) (hlater : AcceptsAll env params mid later after)
    (hkeyed : ∀ step ∈ first ++ later, step.Keyed curve env.hash256)
    (hrun : Trace (fun s call t => InPlace env.hash256 curve s.manager call ∧ t = s.apply call) (.new data_dir)
      calls history)
    (hwritten : ∀ file_num undo fault, Call.write_undo file_num undo fault ∈ calls →
      ∃ step ∈ first ++ later, step.undo = undo)
    (hentries : List.Forall₂ (fun entry step => entry.height = step.height ∧
      (entry.disk_pos, step.block) ∈ history.blocks ∧ (entry.undo_disk_pos, step.undo) ∈ history.undos)
      entries (first ++ later))
    {current : CoinsViewCache} (hcurrent : current.Coherent) (hshows : current.visible = mid.visible) :
    ∃ restored, disconnect_entries env.hash256 curve history.manager entries.reverse current = .ok restored ∧
      restored.visible = view.visible := by
  have hall := hfirst.append hlater
  obtain ⟨_, hundos⟩ := hall.storable hcoherent hkeyed hcoins
  have hkept : history.Kept env.hash256 curve := by
    refine hrun.invariant_of_mem (History.Kept env.hash256 curve) ?_ ⟨nofun, nofun⟩
    rintro s call _ hmem hs ⟨hplace, rfl⟩
    refine hs.apply (hplace.in_step fun file_num undo fault heq => ?_)
    obtain ⟨step, hstep, rfl⟩ := hwritten file_num undo fault (heq ▸ hmem)
    exact hundos step hstep
  obtain ⟨hblocks_read, hundos_read⟩ := hkept.readable
  have hreads : List.Forall₂ (Entry.Reads env.hash256 curve history.manager) entries (first ++ later) :=
    hentries.imp fun entry step ⟨hheight, hblock, hundo⟩ =>
      ⟨hheight, hblocks_read _ _ hblock, hundos_read _ _ hundo⟩
  obtain ⟨hconnects, hshape⟩ := hall.connects
  obtain ⟨hfirst_connects, hfirst_shape⟩ := hfirst.connects
  obtain ⟨_, _, _, hback⟩ := hconnects.rewinds hcoherent hcoins.spendable hshape
  obtain ⟨_, _, hunchanged, _⟩ := hfirst_connects.rewinds hcoherent hcoins.spendable hfirst_shape
  obtain ⟨results, restored, hrewind, _, _, hrewinds⟩ := hback hcurrent
  refine ⟨restored, ?_, hrewinds.eq_before fun outpoint houtpoint => ?_⟩
  · rw [disconnect_entries_eq_rewind (List.rel_reverse hreads), hrewind]
    rfl
  · rw [hshows]
    refine hunchanged outpoint fun ⟨step, hmem, hchanged⟩ => houtpoint ⟨step, ?_, hchanged⟩
    exact List.mem_append_left _ hmem

/-- The block of the sample payment and its undo data, written to a new directory. -/
def payment_writes : List Call :=
  [.write_block payment_step.block mainnet_magic none, .write_undo 0 payment_step.undo none]

def payment_history : History := payment_writes.foldl History.apply (.new empty_directory)

theorem payment_step_keyed : payment_step.Keyed generator_curve Env.op_true.hash256 := by
  have hcount : payment_step.block.vtx.length ≤ MAX_SIZE := by decide
  have hheight : 0 ≤ payment_step.height ∧ payment_step.height < 2 ^ 31 := by decide
  have hscripts : ∀ tx ∈ payment_step.block.vtx, ∀ output ∈ tx.vout, output.script_pubkey.data.length ≠ 67 := by
    decide
  refine ⟨⟨hcount, fun tx hmem => ?_⟩, fun placed hmem => ?_⟩
  · obtain rfl | hmem := List.mem_cons.mp hmem
    · exact ⟨rfl, .inl (by decide), by decide, by decide, by decide, by decide⟩
    · obtain rfl := List.mem_singleton.mp hmem
      exact ⟨rfl, .inl (by decide), by decide, by decide, by decide, by decide⟩
  · obtain ⟨tx, htx, rfl⟩ := List.mem_map.mp hmem
    exact ⟨hheight.1, hheight.2, fun output houtput hpays => absurd hpays.1 (hscripts tx htx output houtput)⟩

theorem funding_storable : StorableCoins generator_curve (CoinsViewCache.new funding_base).visible := by
  have hscript : (funding_coin 50).tx_out.script_pubkey.data.length ≠ 67 := by decide
  intro outpoint coin hcoin
  rw [CoinsViewCache.new_visible] at hcoin
  by_cases heq : outpoint = funding_outpoint
  · rw [heq] at hcoin
    obtain rfl : funding_coin 50 = coin := Option.some.inj hcoin
    exact ⟨by decide, by decide, by decide, by decide, fun hpays => absurd hpays.1 hscript⟩
  · rw [funding_base_other heq] at hcoin
    cases hcoin

theorem payment_writes_in_place :
    Trace (fun s call t => InPlace Env.op_true.hash256 generator_curve s.manager call ∧ t = s.apply call)
      (.new empty_directory) payment_writes payment_history := by
  refine .cons ⟨?_, rfl⟩ (.cons ⟨?_, rfl⟩ (.nil _))
  · exact ⟨by decide +kernel, by decide +kernel, payment_step_keyed.sendable⟩
  · exact ⟨by decide +kernel, by decide +kernel, by decide +kernel⟩

theorem recovery_restores_payment :
    ∃ restored, disconnect_entries Env.op_true.hash256 generator_curve payment_history.manager [⟨1, 0, 8, 4⟩] paid_view =
        .ok restored ∧ restored.visible = (CoinsViewCache.new funding_base).visible := by
  have hcoherent := CoinsViewCache.new_coherent funding_base
  have hkeyed : ∀ step ∈ [payment_step] ++ [], step.Keyed generator_curve Env.op_true.hash256 := by
    intro step hmem
    obtain rfl := List.mem_singleton.mp hmem
    exact payment_step_keyed
  have hwritten : ∀ file_num undo fault, Call.write_undo file_num undo fault ∈ payment_writes →
      ∃ step ∈ [payment_step] ++ [], step.undo = undo := by
    intro file_num undo fault hmem
    obtain hmem | hmem := List.mem_cons.mp hmem
    · cases hmem
    · cases List.mem_singleton.mp hmem
      exact ⟨payment_step, List.mem_cons_self, rfl⟩
  have hblock : ((⟨0, 8⟩ : DiskBlockPos), payment_step.block) ∈ payment_history.blocks := by decide +kernel
  have hundo : ((⟨0, 4⟩ : DiskBlockPos), payment_step.undo) ∈ payment_history.undos := by decide +kernel
  obtain ⟨hafter, _⟩ := payment_accepted.trace hcoherent
  have hentries : List.Forall₂ (fun (entry : Entry) (step : ConnectedBlock) => entry.height = step.height ∧
      (entry.disk_pos, step.block) ∈ payment_history.blocks ∧ (entry.undo_disk_pos, step.undo) ∈ payment_history.undos)
      [⟨1, 0, 8, 4⟩] ([payment_step] ++ []) := .cons ⟨Eq.refl _, hblock, hundo⟩ .nil
  exact recovery_restores hcoherent funding_storable payment_accepted (.nil paid_view) hkeyed payment_writes_in_place
    hwritten hentries hafter (Eq.refl _)

end qubitcoin.block_storage
