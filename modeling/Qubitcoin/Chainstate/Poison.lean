import Qubitcoin.Chainstate.Variant
import Qubitcoin.Chainstate.BestChain

/-! A body that does not belong to its header marks the header as failed. The block
    itself is still accepted afterwards, but its children are not. -/

open qubitcoin primitives transaction block coins params check validation_state chain chainparams
  qubitcoin.validation parentTree transition

namespace qubitcoin.validation

theorem contextual_check_block_header_time {header : BlockHeader} {prev_index : BlockIndex} {params : ConsensusParams}
    {arena : List BlockIndex} {prev_idx : Nat} {now : Int} (other : Int)
    (hcheck : contextual_check_block_header_with_arena header prev_index params arena prev_idx now = .ok ()) :
    contextual_check_block_header_with_arena header prev_index params arena prev_idx other = .ok () ↔
      header.time.toNat ≤ other + MAX_FUTURE_BLOCK_TIME := by
  unfold contextual_check_block_header_with_arena at hcheck ⊢
  simp only [bind_eq_ok_iff, require_eq_ok, decide_eq_true_eq] at hcheck ⊢
  obtain ⟨height, hheight, v2, h2, v3, h3, v4, h4, u1, hold, u2, _, rest⟩ := hcheck
  constructor
  · rintro ⟨_, _, _, _, _, _, _, _, _, _, _, hnew, _⟩
    exact hnew
  · exact fun hnew => ⟨height, hheight, v2, h2, v3, h3, v4, h4, u1, hold, u2, hnew, rest⟩

end qubitcoin.validation

namespace qubitcoin.chainstate

namespace ChainstateManager

variable {self mid : ChainstateManager} {idx : Nat}

theorem Variant.refl (idx : Nat) (self : ChainstateManager) : Variant idx self self :=
  ⟨rfl, rfl, rfl, rfl, rfl, rfl, rfl, fun _ _ => rfl, rfl, rfl, rfl⟩

theorem Variant.update_right {left right : ChainstateManager} (hvariant : Variant idx left right)
    {update : BlockIndex → BlockIndex} (hfixed : ∀ index, (update index).fixed = index.fixed)
    (hpositions : ∀ index, (update index).file = index.file ∧ (update index).data_pos = index.data_pos ∧
      (update index).undo_pos = index.undo_pos) : Variant idx left (right.update_entry idx update) := by
  have hupdates : Updates right (right.update_entry idx update) := .update_entry right idx hfixed
  refine ⟨hvariant.params, hvariant.assume_valid, hvariant.by_hash, hvariant.chain, hvariant.coins_tip,
    hvariant.best_valid_tip, hupdates.fixed.trans hvariant.fixed, ?_, ?_⟩
  · intro i hi
    rw [entry_update_entry, if_neg fun h => hi h.1.symm]
    exact hvariant.others i hi
  · obtain ⟨hfile, hdata, hundo⟩ := hvariant.positions
    rw [entry_update_entry]
    split
    · obtain ⟨hsame_file, hsame_data, hsame_undo⟩ := hpositions (right.entry idx)
      exact ⟨hsame_file.trans hfile, hsame_data.trans hdata, hsame_undo.trans hundo⟩
    · exact ⟨hfile, hdata, hundo⟩

theorem Variant.find_by_hash {left right : ChainstateManager} (hvariant : Variant idx left right) (hash : BlockHash) :
    right.block_index.find_by_hash hash = left.block_index.find_by_hash hash := by
  unfold BlockMap.find_by_hash
  rw [hvariant.by_hash]

theorem failed_mark_failed (hlt : idx < self.arena.length) (state : BlockValidationState) :
    ((self.mark_failed idx (.invalid state)).entry idx).status.has_failed = true := by
  unfold mark_failed
  rw [entry_update_entry, if_pos ⟨rfl, hlt⟩]
  exact BlockStatus.has_failed_failed _

theorem failed_receive_data (block : Block) (i : Nat) :
    ((self.receive_data block idx).entry i).status.has_failed = (self.entry i).status.has_failed := by
  unfold receive_data
  rw [entry_update_entry]
  split
  · unfold BlockStatus.has_failed
    rw [BlockStatus.raise_validity_and (by decide) (by decide), BlockStatus.insert_and (by decide)]
  · rfl

theorem failed_mark_connected (i : Nat) :
    ((self.mark_connected idx).entry i).status.has_failed = (self.entry i).status.has_failed := by
  rw [entry_mark_connected]
  split
  · unfold BlockStatus.has_failed
    rw [BlockStatus.raise_validity_and (by decide) (by decide)]
  · rfl

variable (env : Env)

theorem connect_loop_keeps (block_reader : BlockReader) (idx : Nat) (new_chain : List Nat) (heights : List Int) :
    ∀ self : ChainstateManager,
      (connect_loop env block_reader (some idx) new_chain heights self).2.arena[idx]? = self.arena[idx]? := by
  induction heights with
  | nil => exact fun _ => rfl
  | cons h rest ih =>
    intro self
    unfold connect_loop
    split
    · rfl
    · next i _ =>
      split
      · exact ih self
      · next hjust =>
        have hne : i ≠ idx := fun heq => hjust (congrArg some heq.symm)
        have hkeep := self.connect_at_keeps env block_reader h hne
        split
        · next e after heq => rwa [heq] at hkeep
        · next after heq =>
          rw [heq] at hkeep
          exact (ih after).trans hkeep

theorem activate_best_chain_keeps (self : ChainstateManager) (block_reader : BlockReader) (idx : Nat) :
    (self.activate_best_chain env block_reader (some idx)).2.arena[idx]? = self.arena[idx]? := by
  unfold activate_best_chain
  split
  · rfl
  · next best_idx _ _ =>
    split
    · rfl
    · unfold reorganize
      dsimp only
      split
      · rfl
      · next coins_tip _ =>
        have hloop := connect_loop_keeps env block_reader idx (self.build_chain_path best_idx)
          (heights_up (self.find_fork_height (self.build_chain_path best_idx) self.chain.height)
            (self.entry best_idx).height) { self with coins_tip }
        split
        · next e after heq => rwa [heq] at hloop
        · next after heq => rwa [heq] at hloop

theorem failed_process_body {block : Block} {block_reader : BlockReader} (hlt : idx < self.arena.length)
    (hok : (self.process_body env block idx block_reader).1.isOk = true) :
    ((self.process_body env block idx block_reader).2.entry idx).status.has_failed =
      (self.entry idx).status.has_failed := by
  unfold process_body at hok ⊢
  split at hok
  · cases hok
  · dsimp only at hok ⊢
    split at hok
    · cases hok
    · split at hok
      · cases hok
      · next undo coins_tip _ =>
        have hkeep := activate_best_chain_keeps env
          ({ self.receive_data block idx with coins_tip }.mark_connected idx) block_reader idx
        have hlt_connected : idx < ({ self.receive_data block idx with coins_tip }.mark_connected idx).arena.length := by
          rw [(mark_connected_updates { self.receive_data block idx with coins_tip } idx).length]
          exact ((receive_data_updates self block idx).length).symm ▸ hlt
        have hentry : ∀ after : ChainstateManager, after.arena[idx]? =
            ({ self.receive_data block idx with coins_tip }.mark_connected idx).arena[idx]? →
            (after.entry idx).status.has_failed = (self.entry idx).status.has_failed := by
          intro after hafter
          have hcoins : { self.receive_data block idx with coins_tip }.entry idx =
              (self.receive_data block idx).entry idx := rfl
          rw [entry_eq (hafter.trans (getElem?_entry hlt_connected)), failed_mark_connected, hcoins,
            failed_receive_data]
        split at hok
        · cases hok
        · next after heq =>
          rw [heq] at hkeep
          exact hentry after hkeep

theorem check_new_header_eq_ok {header : BlockHeader} {now : Int} {prev_idx : Nat} :
    self.check_new_header env header now = .ok prev_idx ↔
      check_proof_of_work (header.block_hash env.hash256) header.bits self.params.consensus = true ∧
      self.block_index.find_by_hash header.prev_blockhash = some prev_idx ∧
      (self.entry prev_idx).status.has_failed = false ∧
      contextual_check_block_header_with_arena header (self.entry prev_idx) self.params.consensus self.arena prev_idx
        now = .ok () := by
  have hparent : ∀ other, self.find_parent header = .ok other ↔
      self.block_index.find_by_hash header.prev_blockhash = some other ∧
        (self.entry other).status.has_failed = false := by
    intro other
    unfold find_parent
    cases self.block_index.find_by_hash header.prev_blockhash with
    | none => simp
    | some found =>
      dsimp only
      split
      · next hfailed =>
        constructor
        · exact nofun
        · rintro ⟨heq, hnot⟩
          cases heq
          rw [hfailed] at hnot
          cases hnot
      · next hfailed =>
        constructor
        · intro heq
          cases heq
          exact ⟨rfl, by simpa using hfailed⟩
        · rintro ⟨heq, _⟩
          cases heq
          rfl
  unfold check_new_header check_block_header
  simp only [bind_eq_ok_iff, require_eq_ok, hparent]
  constructor
  · rintro ⟨_, hpow, other, ⟨hfound, hfailed⟩, _, hcontext, heq⟩
    cases heq
    exact ⟨hpow, hfound, hfailed, hcontext⟩
  · rintro ⟨hpow, hfound, hfailed, hcontext⟩
    exact ⟨(), hpow, prev_idx, ⟨hfound, hfailed⟩, (), hcontext, rfl⟩

/-- A header that is accepted at one time is accepted at another, with the same
    entry, unless it is new and too far in the future. -/
theorem accept_block_header_time {header : BlockHeader} {now : Int} (other : Int)
    (haccept : self.accept_block_header env header now = (.ok idx, mid)) :
    if self.block_index.find_by_hash (header.block_hash env.hash256) = none ∧
        other + MAX_FUTURE_BLOCK_TIME < header.time.toNat
    then ∃ e, self.accept_block_header env header other = (.error e, self)
    else self.accept_block_header env header other = (.ok idx, mid) := by
  obtain ⟨hfound, rfl⟩ | ⟨prev_idx, hnew, hcheck, rfl, rfl⟩ := accept_block_header_ok env haccept
  · rw [if_neg (by simp [hfound])]
    unfold accept_block_header
    rw [hfound]
  · obtain ⟨hpow, hparent, hfailed, hcontext⟩ := (check_new_header_eq_ok env).mp hcheck
    have htime := contextual_check_block_header_time other hcontext
    unfold accept_block_header
    rw [hnew]
    split
    · next hlate =>
      have hlate := hlate.2
      cases hother : self.check_new_header env header other with
      | error e => exact ⟨e, rfl⟩
      | ok found =>
        obtain ⟨_, hfound, _, hcontext⟩ := (check_new_header_eq_ok env).mp hother
        rw [hparent] at hfound
        cases hfound
        have := htime.mp hcontext
        omega
    · next hlate =>
      have hle : header.time.toNat ≤ other + MAX_FUTURE_BLOCK_TIME := by
        by_contra hgt
        exact hlate ⟨rfl, by omega⟩
      have hother : self.check_new_header env header other = .ok prev_idx :=
        (check_new_header_eq_ok env).mpr ⟨hpow, hparent, hfailed, htime.mpr hle⟩
      rw [hother]
      rfl

/-- What a header on top of an entry meets. -/
def Extends (self : ChainstateManager) (idx : Nat) (child : BlockHeader) (now : Int) : Prop :=
  check_proof_of_work (child.block_hash env.hash256) child.bits self.params.consensus = true ∧
    (self.entry idx).status.has_failed = false ∧
    contextual_check_block_header_with_arena child (self.entry idx) self.params.consensus self.arena idx now = .ok ()

theorem accept_child_isOk {child : BlockHeader} {now : Int}
    (hparent : self.block_index.find_by_hash child.prev_blockhash = some idx) :
    (self.accept_block_header env child now).1.isOk = true ↔
      (self.block_index.find_by_hash (child.block_hash env.hash256)).isSome = true ∨
        self.Extends env idx child now := by
  unfold accept_block_header
  cases self.block_index.find_by_hash (child.block_hash env.hash256) with
  | some found => exact ⟨fun _ => .inl rfl, fun _ => rfl⟩
  | none =>
    dsimp only
    cases hcheck : self.check_new_header env child now with
    | error e =>
      refine ⟨nofun, ?_⟩
      rintro (hsome | ⟨hpow, hfailed, hcontext⟩)
      · cases hsome
      · have hok := (check_new_header_eq_ok env).mpr ⟨hpow, hparent, hfailed, hcontext⟩
        rw [hcheck] at hok
        cases hok
    | ok found =>
      refine ⟨fun _ => .inr ?_, fun _ => rfl⟩
      obtain ⟨hpow, hfound, hfailed, hcontext⟩ := (check_new_header_eq_ok env).mp hcheck
      rw [hparent] at hfound
      cases hfound
      exact ⟨hpow, hfailed, hcontext⟩

theorem process_new_block_of_header {block : Block} {now : Int} (block_reader : BlockReader)
    (haccept : self.accept_block_header env block.header now = (.ok idx, mid)) :
    self.process_new_block env block now block_reader =
      if mid.is_connected idx then (.ok (decide (mid.chain.tip = some idx), none), mid)
      else mid.process_body env block idx block_reader := by
  unfold process_new_block
  rw [haccept]

theorem accept_known_header {header : BlockHeader} (now : Int)
    (hfound : self.block_index.find_by_hash (header.block_hash env.hash256) = some idx) :
    self.accept_block_header env header now = (.ok idx, self) := by
  unfold accept_block_header
  rw [hfound]

theorem Sound.process_mutated (hsound : self.Sound) {mutant : Block} {now : Int} (block_reader : BlockReader)
    (haccept : self.accept_block_header env mutant.header now = (.ok idx, mid)) (hknown : mid.is_connected idx = false)
    (hmutated : Mutated env mutant (decide (mid.params.consensus.segwit_height ≤ (mid.entry idx).height))) :
    Variant idx mid (self.process_new_block env mutant now block_reader).2 ∧
      ((self.process_new_block env mutant now block_reader).2.entry idx).status.has_failed = true := by
  have hmid := hsound.accept_block_header env mutant.header now
  have hfound := (hsound.toIndexed.accept_block_header env mutant.header now).2
  rw [haccept] at hmid hfound
  dsimp only at hmid
  have hlt := hmid.find_lt (hfound idx rfl)
  have hne : idx ≠ 0 := by
    rintro rfl
    rw [hmid.is_connected_genesis] at hknown
    cases hknown
  have hdata : Variant idx mid (mid.receive_data mutant idx) :=
    (Variant.refl idx mid).update_right (fun _ => rfl) fun _ => ⟨rfl, rfl, rfl⟩
  have hlt_data : idx < (mid.receive_data mutant idx).arena.length := by
    rw [hdata.length]
    exact hlt
  obtain ⟨prev_idx, prev, hprev, _, hprev_at, hheight⟩ := hmid.tree.child (getElem?_entry hlt) hne
  -- The parent of the entry is one lower, so its height plus one fits.
  have hprev_data : ((mid.receive_data mutant idx).entry prev_idx).height + 1 = (mid.entry idx).height := by
    rw [hdata.height, entry_eq hprev_at, hheight]
  have hlink : ((mid.receive_data mutant idx).entry idx).prev = some prev_idx := by
    rw [(fixed_links (hdata.parallel.entry_fixed idx)).1]
    exact hprev
  rw [process_new_block_of_header env block_reader haccept, hknown, if_neg (by simp)]
  unfold process_body
  cases hbody : check_block env mutant mid.params.consensus true with
  | error e =>
    obtain ⟨state, rfl⟩ := (check_block_returns env mutant _ true).exists_invalid hbody
    exact ⟨(Variant.refl idx mid).update_right (fun _ => rfl) fun _ => ⟨rfl, rfl, rfl⟩, failed_mark_failed hlt state⟩
  | ok _ =>
    dsimp only
    have hcontext : (mid.receive_data mutant idx).check_body_context env mutant idx = contextual_check_block env mutant
        ((mid.receive_data mutant idx).entry prev_idx).height (BlockIndex.get_median_time_past
          (collect_ancestors_from (mid.receive_data mutant idx).block_index.indices 11 (some prev_idx)))
        mid.params.consensus := by
      unfold check_body_context
      rw [hlink]
      rfl
    have hrefused := Mutated.refused env (hprev_data ▸ hmutated) (BlockIndex.get_median_time_past
      (collect_ancestors_from (mid.receive_data mutant idx).block_index.indices 11 (some prev_idx)))
    have hrefused := hrefused.resolve_left fun hnot => hnot hbody
    have hfits : IntType.i32.fits (((mid.receive_data mutant idx).entry prev_idx).height + 1) := by
      have hnonneg := hmid.tree.height_nonneg (getElem?_entry hlt)
      have hhigh := hmid.height_lt (getElem?_entry hlt)
      rw [hprev_data]
      exact ⟨by omega, hhigh⟩
    rw [hcontext]
    cases hresult : contextual_check_block env mutant ((mid.receive_data mutant idx).entry prev_idx).height
        (BlockIndex.get_median_time_past
          (collect_ancestors_from (mid.receive_data mutant idx).block_index.indices 11 (some prev_idx)))
        mid.params.consensus with
    | ok _ => exact absurd hresult hrefused
    | error e =>
      obtain ⟨state, rfl⟩ := (contextual_check_block_returns env mutant _ _ hfits).exists_invalid hresult
      exact ⟨hdata.update_right (fun _ => rfl) fun _ => ⟨rfl, rfl, rfl⟩, failed_mark_failed hlt_data state⟩

end ChainstateManager

open ChainstateManager

variable (env : Env)

/-- The outcome of a block, and of a header after it, is the same whether or not
    another body was processed first. -/
def SameOutcome (self : ChainstateManager) (block mutant : Block) (child : BlockHeader) (before now later : Int)
    (mutant_reader block_reader : BlockReader) : Prop :=
  let plain := self.process_new_block env block now block_reader
  let poisoned := (self.process_new_block env mutant before mutant_reader).2.process_new_block env block now block_reader
  poisoned.1.isOk = plain.1.isOk ∧
    (poisoned.2.accept_block_header env child later).1.isOk = (plain.2.accept_block_header env child later).1.isOk

/-- When a mutated body does no harm: the header is new and too far in the future at
    that time, the block is connected already, the child is known already, or the
    child could not follow the block anyway. -/
def Harmless (self mid : ChainstateManager) (idx : Nat) (header child : BlockHeader) (before later : Int) : Prop :=
  (self.block_index.find_by_hash (header.block_hash env.hash256) = none ∧
    before + MAX_FUTURE_BLOCK_TIME < header.time.toNat) ∨
  mid.is_connected idx = true ∨
  (mid.block_index.find_by_hash (child.block_hash env.hash256)).isSome = true ∨
  ¬ mid.Extends env idx child later

theorem child_outcome_iff {self mid after poisoned : ChainstateManager} {idx : Nat} {block : Block}
    {child : BlockHeader} {before later : Int} (hupdates : Updates mid after)
    (hfound : mid.block_index.find_by_hash (block.block_hash env.hash256) = some idx)
    (hchild : child.prev_blockhash = block.block_hash env.hash256)
    (hkept : (after.entry idx).status.has_failed = (mid.entry idx).status.has_failed)
    (hpair : Variant idx after poisoned) (hfailed : (poisoned.entry idx).status.has_failed = true)
    (hlate : ¬ (self.block_index.find_by_hash (block.header.block_hash env.hash256) = none ∧
      before + MAX_FUTURE_BLOCK_TIME < block.header.time.toNat)) (hknown : mid.is_connected idx = false) :
    (poisoned.accept_block_header env child later).1.isOk = (after.accept_block_header env child later).1.isOk ↔
      Harmless env self mid idx block.header child before later := by
  have hsame : ∀ hash, after.block_index.find_by_hash hash = mid.block_index.find_by_hash hash := fun hash => by
    unfold BlockMap.find_by_hash
    rw [hupdates.by_hash]
  have hparent : after.block_index.find_by_hash child.prev_blockhash = some idx := by
    rw [hsame, hchild]
    exact hfound
  have hextends : after.Extends env idx child later ↔ mid.Extends env idx child later := by
    have hcontext := contextual_check_block_header_fixed hupdates.fixed child mid.params.consensus idx later
    unfold Extends
    rw [hupdates.params, hkept]
    exact and_congr_right fun _ => and_congr_right fun _ => Eq.congr_left hcontext
  have hnever : ¬ poisoned.Extends env idx child later := by
    rintro ⟨_, hclear, _⟩
    rw [hfailed] at hclear
    cases hclear
  have hafter_ok : (after.accept_block_header env child later).1.isOk = true ↔
      (mid.block_index.find_by_hash (child.block_hash env.hash256)).isSome = true ∨ mid.Extends env idx child later := by
    rw [accept_child_isOk env hparent, hsame, hextends]
  have hpoisoned_ok : (poisoned.accept_block_header env child later).1.isOk = true ↔
      (mid.block_index.find_by_hash (child.block_hash env.hash256)).isSome = true := by
    rw [accept_child_isOk env ((hpair.find_by_hash _).trans hparent), hpair.find_by_hash, hsame, or_iff_left hnever]
  have hnot : ¬ (mid.is_connected idx = true) := by simp [hknown]
  unfold Harmless
  rw [Bool.eq_iff_iff, hafter_ok, hpoisoned_ok, or_iff_right hlate, or_iff_right hnot]
  constructor
  · intro heq
    by_cases hext : mid.Extends env idx child later
    · exact .inl (heq.mpr (.inr hext))
    · exact .inr hext
  · rintro (hsome | hnot)
    · exact ⟨.inl, fun _ => hsome⟩
    · exact ⟨.inl, fun h => h.resolve_right hnot⟩

/-- In every state reached from genesis, processing a mutated body before an accepted
    block leaves the outcome of the block, and that of a child's header exactly if it
    is harmless. -/
theorem mutated_body_harmless_iff {params : ChainParams} {base : CoinsViewDB} {start self mid : ChainstateManager}
    {events : List Event} (hstart : FromGenesis env params base start) (hrun : Run env start events self)
    {block mutant : Block} {child : BlockHeader} {before now later : Int} {mutant_reader block_reader : BlockReader}
    {idx : Nat} (hheader : self.accept_block_header env block.header now = (.ok idx, mid))
    (haccept : (self.process_new_block env block now block_reader).1.isOk = true)
    (hsame : mutant.header = block.header)
    (hmutated : Mutated env mutant (decide (mid.params.consensus.segwit_height ≤ (mid.entry idx).height)))
    (hchild : child.prev_blockhash = block.block_hash env.hash256) :
    SameOutcome env self block mutant child before now later mutant_reader block_reader ↔
      Harmless env self mid idx block.header child before later := by
  have hsound := Run.sound env hrun (FromGenesis.sound env hstart)
  have hmid := hsound.accept_block_header env block.header now
  have hfound := (hsound.toIndexed.accept_block_header env block.header now).2
  rw [hheader] at hmid hfound
  dsimp only at hmid hfound
  have hfound := hfound idx rfl
  have hlt := hmid.find_lt hfound
  have hplain := process_new_block_of_header env block_reader hheader
  have htime := accept_block_header_time env before hheader
  unfold SameOutcome
  dsimp only
  by_cases hlate : self.block_index.find_by_hash (block.header.block_hash env.hash256) = none ∧
      before + MAX_FUTURE_BLOCK_TIME < block.header.time.toNat
  · rw [if_pos hlate] at htime
    obtain ⟨e, hrefused⟩ := htime
    have hnothing : (self.process_new_block env mutant before mutant_reader).2 = self := by
      unfold process_new_block
      rw [hsame, hrefused]
    rw [hnothing]
    exact ⟨fun _ => .inl hlate, fun _ => ⟨rfl, rfl⟩⟩
  rw [if_neg hlate] at htime
  rw [← hsame] at htime
  cases hknown : mid.is_connected idx with
  | true =>
    have hmutant := process_new_block_of_header env mutant_reader htime
    rw [hknown, if_pos rfl] at hmutant hplain
    have hagain := process_new_block_of_header env block_reader (accept_known_header env now hfound)
    rw [hknown, if_pos rfl] at hagain
    rw [hmutant, hplain]
    dsimp only
    rw [hagain]
    exact ⟨fun _ => .inr (.inl hknown), fun _ => ⟨rfl, rfl⟩⟩
  | false =>
    obtain ⟨hvariant, hfailed⟩ := hsound.process_mutated env mutant_reader htime hknown hmutated
    have hmarked_sound := hsound.process_new_block env mutant before mutant_reader
    have hupdates := (self.process_new_block_processed env block now block_reader).updates env
    generalize (self.process_new_block env mutant before mutant_reader).2 = marked at hvariant hfailed hmarked_sound ⊢
    have hmarked_lt : idx < marked.arena.length := by
      rw [hvariant.length]
      exact hlt
    rw [hknown, if_neg (by simp)] at hplain
    have hmarked : marked.is_connected idx = false := by
      have hnot : (marked.entry idx).is_valid BlockStatus.VALID_SCRIPTS = false := by
        rw [Bool.eq_false_iff]
        intro hvalid
        have hclear := BlockStatus.not_has_failed_of_is_valid hvalid (hmarked_sound.flags (getElem?_entry hmarked_lt))
        rw [hfailed] at hclear
        cases hclear
      unfold is_connected
      rw [hnot]
      rfl
    have hpoisoned := process_new_block_of_header env block_reader
      (accept_known_header env now ((hvariant.find_by_hash _).trans hfound))
    rw [hmarked, if_neg (by simp)] at hpoisoned
    obtain ⟨result, after, poisoned, hafter, hpoisoned_after, hpair⟩ :=
      (hvariant.process_body env block block_reader).exists_eq
    rw [hafter] at hplain
    rw [hpoisoned_after] at hpoisoned
    rw [hheader, hplain] at hupdates
    have hok : result.isOk = true := by rwa [hplain] at haccept
    have hkept : (after.entry idx).status.has_failed = (mid.entry idx).status.has_failed := by
      have hkept := failed_process_body env hlt (by rw [hafter]; exact hok)
      rwa [hafter] at hkept
    have hmarked_kept : (poisoned.entry idx).status.has_failed = true := by
      have hkept := failed_process_body env hmarked_lt (by rw [hpoisoned_after]; exact hok)
      rwa [hpoisoned_after, hfailed] at hkept
    rw [hplain, hpoisoned, and_iff_right rfl]
    exact child_outcome_iff env hupdates hfound hchild hkept hpair hmarked_kept hlate hknown

/-- The header of the first block without its transactions. -/
def empty_body : Block := ⟨first_block.header, []⟩

def second_header (nonce : UInt32) : BlockHeader := (regtest_block first_block [] nonce).header

def first_block_manager : ChainstateManager := (regtest_manager.process_new_block .op_true first_block regtest_now none).2

theorem first_block_facts :
    (check_merkle .op_true empty_body true).isOk = false ∧
    (regtest_manager.process_new_block .op_true first_block regtest_now none).1.isOk = true ∧
    (regtest_manager.accept_block_header .op_true first_block.header regtest_now).1.toOption = some 1 ∧
    check_proof_of_work ((second_header 2).block_hash Env.op_true.hash256) (second_header 2).bits
      regtest_manager.params.consensus = false ∧
    check_proof_of_work ((second_header 0).block_hash Env.op_true.hash256) (second_header 0).bits
      first_block_manager.params.consensus = true ∧
    (first_block_manager.entry 1).status.has_failed = false ∧
    (collect_ancestors_from first_block_manager.arena MEDIAN_TIME_SPAN (some 1)).map BlockIndex.get_block_time =
      [1296689202, 1296688602] ∧
    first_block_manager.block_index.find_by_hash (second_header 0).prev_blockhash = some 1 ∧
    (((regtest_manager.process_new_block .op_true empty_body regtest_now none).2.process_new_block .op_true
      first_block regtest_now none).2.accept_block_header .op_true (second_header 0) regtest_now).1.isOk = false := by
  decide +kernel

theorem empty_body_mutated (segwit_active : Bool) : Mutated .op_true empty_body segwit_active := by
  obtain ⟨hmerkle, _⟩ := first_block_facts
  cases hcheck : check_merkle .op_true empty_body true with
  | ok _ =>
    rw [hcheck] at hmerkle
    cases hmerkle
  | error e => exact .inl ⟨e, hcheck⟩

theorem second_header_prev (nonce : UInt32) :
    (second_header nonce).prev_blockhash = first_block.block_hash Env.op_true.hash256 := rfl

/-- A child without proof of work is refused in both runs. -/
theorem mutated_body_harmless_without_work :
    SameOutcome .op_true regtest_manager first_block empty_body (second_header 2) regtest_now regtest_now regtest_now
      none none := by
  obtain ⟨_, hok, hheader, hrefused, _⟩ := first_block_facts
  have hwork : ∀ mid : ChainstateManager, mid.params.consensus = regtest_manager.params.consensus →
      ¬ mid.Extends .op_true 1 (second_header 2) regtest_now := by
    rintro mid hparams ⟨hwork, _⟩
    rw [hparams, hrefused] at hwork
    cases hwork
  have hframe := (regtest_manager.accept_block_header_frame .op_true first_block.header regtest_now).1
  cases haccept : regtest_manager.accept_block_header .op_true first_block.header regtest_now with
  | mk result mid =>
    rw [haccept] at hheader hframe
    cases result with
    | error e => cases hheader
    | ok idx =>
      cases hheader
      have hsame : empty_body.header = first_block.header := rfl
      have hharmless : Harmless .op_true regtest_manager mid 1 first_block.header (second_header 2) regtest_now
          regtest_now := .inr (.inr (.inr (hwork mid (congrArg ChainParams.consensus hframe))))
      exact (mutated_body_harmless_iff .op_true regtest_manager_from_genesis (.nil _) haccept hok hsame
        (empty_body_mutated _) (second_header_prev 2)).mpr hharmless

theorem first_block_manager_mtp : compute_mtp first_block_manager.arena 1 = 1296689202 := by
  obtain ⟨_, _, _, _, _, _, htimes, _⟩ := first_block_facts
  unfold compute_mtp collect_mtp_ancestors BlockIndex.get_median_time_past
  rw [List.map_take, htimes]
  simp [MEDIAN_TIME_SPAN, List.mergeSort]

theorem first_block_manager_extends : first_block_manager.Extends .op_true 1 (second_header 0) regtest_now := by
  obtain ⟨_, _, _, _, hwork, hvalid, _⟩ := first_block_facts
  refine ⟨hwork, hvalid, ?_⟩
  unfold contextual_check_block_header_with_arena
  rw [first_block_manager_mtp]
  decide +kernel

/-- The first block is accepted after its empty body, but no child of it is. -/
theorem mutated_body_harmless_fails :
    (regtest_manager.process_new_block .op_true first_block regtest_now none).1.isOk = true ∧
    empty_body.header = first_block.header ∧ (∀ segwit_active, Mutated .op_true empty_body segwit_active) ∧
    (second_header 0).prev_blockhash = first_block.block_hash Env.op_true.hash256 ∧
    FromGenesis .op_true .regtest ⟨∅, 0⟩ regtest_manager ∧
    ¬ SameOutcome .op_true regtest_manager first_block empty_body (second_header 0) regtest_now regtest_now regtest_now
      none none := by
  obtain ⟨_, hok, _, _, _, _, _, hparent, hrefused⟩ := first_block_facts
  refine ⟨hok, rfl, empty_body_mutated, rfl, regtest_manager_from_genesis, ?_⟩
  rintro ⟨_, hchild⟩
  have hplain : (first_block_manager.accept_block_header .op_true (second_header 0) regtest_now).1.isOk = true :=
    (accept_child_isOk .op_true hparent).mpr (.inr first_block_manager_extends)
  rw [hrefused] at hchild
  exact Bool.false_ne_true (hchild.trans hplain)

end qubitcoin.chainstate
