import Qubitcoin.Validation.Spent

/-! No sum of amounts or of times overflows while a checked block is connected. -/

open qubitcoin primitives script transaction block coins params check validation_state script_check

namespace qubitcoin.validation

theorem fits_amount {x : Int} (hlow : -(2 ^ 60) ≤ x) (hhigh : x ≤ 2 ^ 60) : IntType.fits .Amount x := by
  constructor <;> norm_num at * <;> omega

theorem no_overflow_mapError {A : Type} {type : IntType} {x : Except (Failure TxValidationState) A}
    (hx : NoOverflow type x) : NoOverflow type (x.mapError as_block_failure) := by
  cases x with
  | ok a => exact .ok a
  | error e =>
    cases e with
    | invalid state => exact .invalid _
    | panic why =>
      intro heq
      cases heq
      exact hx rfl

/-- Median times past are times of headers, which are 32 bits wide. -/
def TimesBounded (times : Int → Int) : Prop := ∀ height, 0 ≤ times height ∧ times height < 2 ^ 32

theorem collect_script_checks_overflow {type : IntType} (husize : IntType.usize ≠ type)
    {spent_coins : List (List Coin)} {flags : UInt32} {txs : List Transaction} :
    ∀ {tx_index : Nat}, collect_script_checks_from spent_coins flags tx_index txs ≠ .error (.overflow type) := by
  induction txs with
  | nil => exact fun {tx_index} => nofun
  | cons tx rest ih =>
    intro tx_index
    unfold collect_script_checks_from
    split
    · exact ih
    · split
      · intro heq
        cases heq
        exact husize rfl
      · split
        · exact ih
        · intro heq
          cases hrest : collect_script_checks_from spent_coins flags (tx_index + 1) rest with
          | ok checks =>
            rw [hrest] at heq
            cases heq
          | error why =>
            rw [hrest] at heq
            cases heq
            exact ih hrest

section

variable {type : IntType} (hi32 : IntType.i32 ≠ type)

include hi32

theorem check_maturity_no_overflow (spend_height : Int) (coin : Coin) :
    NoOverflow type (check_maturity spend_height coin) := by
  unfold check_maturity
  split
  · exact .bind (.checked fun h => absurd h hi32) fun _ _ => .require
  · exact .ok ()

theorem check_input_coins_no_overflow (spend_height : Int) (fetched : List (Option Coin)) :
    ∀ {total_in : Amount}, money_range total_in = true →
      NoOverflow type (check_input_coins spend_height total_in fetched) := by
  induction fetched with
  | nil => exact fun {total_in} _ => .ok total_in
  | cons head rest ih =>
    intro total_in htotal
    cases head with
    | none => exact .invalid _
    | some coin =>
      unfold check_input_coins
      refine .bind .require fun _ _ => .bind (check_maturity_no_overflow hi32 _ _) fun _ _ => ?_
      refine .bind .require fun _ hrange => ?_
      have hvalue := money_range_iff.mp (require_eq_ok.mp hrange)
      have htotal := money_range_iff.mp htotal
      refine .bind (.checked fun h => h ▸ fits_amount ?_ ?_) fun sum _ => ?_
      · norm_num
        omega
      · norm_num
        omega
      · exact .bind .require fun _ hsum => ih (require_eq_ok.mp hsum)

theorem check_tx_inputs_no_overflow {tx : Transaction} (hchecked : Checked tx) (fetched : List (Option Coin))
    (spend_height : Int) : NoOverflow type (check_tx_inputs_with_coins tx fetched spend_height) := by
  unfold check_tx_inputs_with_coins
  split
  · exact .ok 0
  · refine .bind (check_input_coins_no_overflow hi32 _ _ (by decide)) fun total_in hin => ?_
    rw [hchecked.get_value_out]
    have hin_range : money_range total_in = true := by
      obtain ⟨coins, hcoins, _, htotal, hrange⟩ := check_input_coins_ok hin
      by_cases hempty : fetched = []
      · subst hempty
        cases List.map_eq_nil_iff.mp hcoins.symm
        rw [htotal]
        decide
      · exact hrange hempty
    refine .bind (.ok _) fun total_out hout => ?_
    cases hout
    have hin_range := money_range_iff.mp hin_range
    have hout_range := money_range_iff.mp hchecked.total
    refine .bind .require fun _ _ => .bind (.checked fun h => h ▸ fits_amount ?_ ?_) fun _ _ => ?_
    · norm_num
      omega
    · norm_num
      omega
    · exact .bind .require fun _ _ => .ok _

theorem sequence_locks_from_no_overflow {S : Type} {times : Int → Int}
    (htimes : type = .i64 → TimesBounded times) (inputs : List (TxIn × Int)) :
    ∀ locks : SequenceLockPair, NoOverflow (S := S) type (sequence_locks_from times locks inputs) := by
  induction inputs with
  | nil => exact fun locks => .ok _
  | cons head rest ih =>
    obtain ⟨input, coin_height⟩ := head
    intro locks
    unfold sequence_locks_from
    split
    · exact .bind (ih _) fun _ _ => .ok _
    · split
      · refine .bind (.checked fun h => absurd h hi32) fun before _ => ?_
        have hmask : (input.sequence &&& SEQUENCE_LOCKTIME_MASK).toNat ≤ 0xffff := by
          rw [UInt32.toNat_and]
          exact Nat.and_le_right
        have hrelative : (input.sequence &&& SEQUENCE_LOCKTIME_MASK).toNat <<< SEQUENCE_LOCKTIME_GRANULARITY ≤
            2 ^ 25 := by
          rw [Nat.shiftLeft_eq, SEQUENCE_LOCKTIME_GRANULARITY]
          omega
        generalize (input.sequence &&& SEQUENCE_LOCKTIME_MASK).toNat <<< SEQUENCE_LOCKTIME_GRANULARITY = relative
          at hrelative
        refine .bind (.checked fun h => ?_) fun sum hsum => .bind (.checked fun h => ?_) fun _ _ =>
          .bind (ih _) fun _ _ => .ok _
        · subst h
          have := htimes rfl (max before 0)
          constructor <;> norm_num at * <;> omega
        · subst h
          obtain ⟨rfl, _⟩ := checked_eq_ok.mp hsum
          have := htimes rfl (max before 0)
          constructor <;> norm_num at * <;> omega
      · exact .bind (.checked fun h => absurd h hi32) fun _ _ =>
          .bind (.checked fun h => absurd h hi32) fun _ _ => .bind (ih _) fun _ _ => .ok _

theorem check_block_sequence_locks_no_overflow {ctx : ConnectContext}
    (hblock_time : 0 ≤ ctx.block_time ∧ ctx.block_time < 2 ^ 32)
    (htimes : type = .i64 → ∀ times ∈ ctx.mtp_at_height, TimesBounded times) (tx : Transaction)
    (fetched : List (Option Coin)) : NoOverflow type (check_block_sequence_locks ctx tx fetched) := by
  have hmtp : type = .i64 → TimesBounded (ctx.mtp_at_height.getD fun _ => ctx.block_time) := by
    intro h
    cases hmtp : ctx.mtp_at_height with
    | none => exact fun _ => hblock_time
    | some times => exact htimes h times hmtp
  unfold check_block_sequence_locks
  split
  · exact .ok ()
  · refine .bind ?_ fun locks _ => .bind ?_ fun _ _ => .require
    · unfold calculate_sequence_locks
      split
      · exact nofun
      · split
        · exact .ok _
        · exact sequence_locks_from_no_overflow hi32 hmtp _ _
    · unfold ConnectContext.prev_block_mtp
      split
      · exact .bind (.checked fun h => absurd h hi32) fun _ _ => .ok _
      · exact .ok _

theorem check_connect_tx_no_overflow {ctx : ConnectContext}
    (hblock_time : 0 ≤ ctx.block_time ∧ ctx.block_time < 2 ^ 32)
    (htimes : type = .i64 → ∀ times ∈ ctx.mtp_at_height, TimesBounded times) {tx : Transaction}
    (hchecked : Checked tx) (fetched : List (Option Coin)) {totals : ConnectTotals}
    (hfees : money_range totals.total_fees = true) :
    NoOverflow type (check_connect_tx ctx tx fetched totals) := by
  have hsigops : ∀ scripts cost, NoOverflow type (add_sigop_cost ctx tx scripts cost) :=
    fun _ _ => .bind .require fun _ _ => .ok _
  unfold check_connect_tx
  split
  · exact .bind (hsigops _ _) fun _ _ => .ok _
  · refine .bind (no_overflow_mapError (check_tx_inputs_no_overflow hi32 hchecked _ _)) fun fee hfee => ?_
    have hfee_range : money_range fee = true := by
      have hfee := mapError_eq_ok.mp hfee
      unfold check_tx_inputs_with_coins at hfee
      split at hfee
      · cases hfee
        decide
      · obtain ⟨_, _, hfee⟩ := bind_eq_ok_iff.mp hfee
        obtain ⟨_, _, hfee⟩ := bind_eq_ok_iff.mp hfee
        obtain ⟨_, _, hfee⟩ := bind_eq_ok_iff.mp hfee
        obtain ⟨_, _, hfee⟩ := bind_eq_ok_iff.mp hfee
        obtain ⟨_, hrange, hfee⟩ := bind_eq_ok_iff.mp hfee
        cases hfee
        exact require_eq_ok.mp hrange
    have hfee_range := money_range_iff.mp hfee_range
    have hfees := money_range_iff.mp hfees
    refine .bind (.checked fun h => h ▸ fits_amount ?_ ?_) fun _ _ => .bind .require fun _ _ => ?_
    · norm_num
      omega
    · norm_num
      omega
    · exact .bind (check_block_sequence_locks_no_overflow hi32 hblock_time htimes tx fetched) fun _ _ =>
        .bind (hsigops _ _) fun _ _ => .ok _

omit hi32 in
theorem add_outputs_no_overflow {height : UInt32} {is_coinbase : Bool} {outputs : List (OutPoint × TxOut)} :
    ∀ {view : CoinsViewCache}, add_outputs height is_coinbase false outputs view ≠ .error (.overflow type) := by
  induction outputs with
  | nil => exact fun {view} => nofun
  | cons entry rest ih =>
    obtain ⟨outpoint, output⟩ := entry
    intro view
    unfold add_outputs
    simp only [Bool.false_eq_true, if_false]
    cases hadd : view.add_coin outpoint (.new output height is_coinbase) is_coinbase with
    | ok mid => exact ih
    | error why =>
      unfold CoinsViewCache.add_coin at hadd
      intro heq
      cases heq
      split at hadd
      · cases hadd
      · split at hadd
        · cases hadd
        · split at hadd
          · split at hadd <;> cases hadd
          · cases hadd

omit hi32 in
theorem check_connect_tx_fees {ctx : ConnectContext} {tx : Transaction} {fetched : List (Option Coin)}
    {totals after : ConnectTotals} (hfees : money_range totals.total_fees = true)
    (hcheck : check_connect_tx ctx tx fetched totals = .ok after) : money_range after.total_fees = true := by
  cases hcoinbase : tx.is_coinbase with
  | false =>
    obtain ⟨_, _, _, _, _, _, _, hrange⟩ := check_connect_tx_ok hcoinbase hcheck
    exact hrange
  | true =>
    unfold check_connect_tx at hcheck
    rw [hcoinbase, if_pos rfl] at hcheck
    obtain ⟨_, _, hcheck⟩ := bind_eq_ok_iff.mp hcheck
    cases hcheck
    exact hfees

theorem connect_txs_no_overflow {ctx : ConnectContext}
    (hblock_time : 0 ≤ ctx.block_time ∧ ctx.block_time < 2 ^ 32)
    (htimes : type = .i64 → ∀ times ∈ ctx.mtp_at_height, TimesBounded times) {txs : List Transaction}
    (hchecked : ∀ tx ∈ txs, Checked tx) :
    ∀ {totals : ConnectTotals} {view : CoinsViewCache}, money_range totals.total_fees = true →
      NoOverflow type (connect_txs ctx txs totals view).1 ∧
        ∀ after, (connect_txs ctx txs totals view).1 = .ok after → money_range after.1.total_fees = true := by
  induction txs with
  | nil =>
    intro totals view hfees
    refine ⟨.ok _, fun after hafter => ?_⟩
    cases hafter
    exact hfees
  | cons tx rest ih =>
    intro totals view hfees
    have hcheck := check_connect_tx_no_overflow hi32 hblock_time htimes (hchecked tx (by simp))
      (input_coins view.visible tx) hfees
    unfold connect_txs
    obtain ⟨e, other, herror, heq, _⟩ | ⟨mid_totals, read, hmid, _, heq⟩ := connect_tx_cases ctx tx totals view
    · rw [heq]
      rw [herror] at hcheck
      exact ⟨fun h => hcheck (by cases h; rfl), fun _ h => by cases h⟩
    · rw [heq]
      split
      · next e mid hfailed =>
        refine ⟨fun h => ?_, fun _ h => by cases h⟩
        cases h
        split at hfailed
        · next why hadd =>
          cases hfailed
          exact add_outputs_no_overflow hadd
        · cases hfailed
      · next passed_totals undo mid hpassed =>
        have hpassed_totals : passed_totals = mid_totals := by
          split at hpassed
          · cases hpassed
          · cases hpassed
            rfl
        subst hpassed_totals
        obtain ⟨hrest, hrest_fees⟩ := @ih (fun other hmem => hchecked other (List.mem_cons_of_mem _ hmem))
          passed_totals mid (check_connect_tx_fees hfees hmid)
        split
        · next e last hlast =>
          rw [hlast] at hrest
          exact ⟨hrest, fun _ h => by cases h⟩
        · next last_totals undos last hlast =>
          rw [hlast] at hrest_fees
          refine ⟨.ok _, fun after hafter => ?_⟩
          cases hafter
          exact hrest_fees (last_totals, undos) rfl

variable (husize : IntType.usize ≠ type) (env : Env)

include husize

theorem check_connected_no_overflow {block : Block} (hblock : CheckedBlock block) (height : Int)
    (params : ConsensusParams) (skip_scripts : Bool) (script_flags : UInt32) {totals : ConnectTotals}
    (hfees : money_range totals.total_fees = true) (undo : List TxUndo) :
    NoOverflow type (check_connected env block height params skip_scripts script_flags totals undo) := by
  refine .bind ?_ fun _ _ => ?_
  · unfold check_block_scripts
    split
    · exact .ok ()
    · split
      · next why hcollect =>
        intro heq
        cases heq
        exact collect_script_checks_overflow husize hcollect
      · split
        · exact .invalid _
        · exact .ok ()
  · unfold check_block_reward
    have hsubsidy : NoOverflow type (get_block_subsidy height params : Except (Failure BlockValidationState) Amount) := by
      unfold get_block_subsidy
      split
      · exact nofun
      · refine .bind (.checked fun h => absurd h hi32) fun _ _ => ?_
        split
        · exact .ok _
        · split
          · exact nofun
          · exact .ok _
    refine .bind hsubsidy fun subsidy hsubsidy => ?_
    obtain ⟨hlow, hhigh⟩ := get_block_subsidy_range hsubsidy
    have hfees := money_range_iff.mp hfees
    have hcoin : (50 * COIN : Int) = 5000000000 := by decide
    refine .bind (.checked fun h => h ▸ fits_amount ?_ ?_) fun max_reward _ => ?_
    · norm_num
      omega
    · norm_num
      omega
    · split
      · exact .ok ()
      · next coinbase rest htxs =>
        rw [(hblock.checked coinbase (by simp [htxs])).get_value_out]
        exact .bind (.ok _) fun _ _ => .require

/-- Connecting a checked block to any view stops on no overflow of amounts, and
    on none of times when the median times are times of headers. -/
theorem connect_block_no_overflow {block : Block} (hblock : CheckedBlock block) (height : Int)
    (view : CoinsViewCache) (params : ConsensusParams) {mtp_at_height : Option (Int → Int)}
    (htimes : type = .i64 → ∀ times ∈ mtp_at_height, TimesBounded times) (skip_scripts : Bool) :
    NoOverflow type (connect_block env block height view params mtp_at_height skip_scripts).1 := by
  have htime : (0 : Int) ≤ block.header.time.toNat ∧ (block.header.time.toNat : Int) < 2 ^ 32 := by
    have := block.header.time.toNat_lt
    omega
  have hloop := @connect_txs_no_overflow type hi32 (connect_context env block height params mtp_at_height) htime
    htimes block.vtx hblock.checked ⟨0, 0⟩ (prepared_view env block height params view) (by decide)
  obtain ⟨other, _, _, heq⟩ | ⟨_, hrest⟩ :=
    connect_block_cases env block height view params mtp_at_height skip_scripts
  · rw [heq]
    exact .invalid _
  · obtain ⟨e, other, herror, heq⟩ | ⟨totals, undo, other, hdone, hend⟩ := hrest
    · rw [herror] at hloop
      rw [heq]
      intro h
      cases h
      exact hloop.1 rfl
    · rw [hdone] at hloop
      have hconnected := check_connected_no_overflow hi32 husize env hblock height params skip_scripts
        (connect_context env block height params mtp_at_height).script_flags (hloop.2 _ rfl) undo
      obtain ⟨e, hcheck, heq⟩ | ⟨_, heq⟩ := hend
      · rw [heq]
        rw [hcheck] at hconnected
        intro h
        cases h
        exact hconnected rfl
      · rw [heq]
        exact .ok _

end

/-- The visible value grows by at most the subsidy, and no sum of amounts
    overflows on the way. -/
def NoInflation (env : Env) (block : Block) (height : Int) (view : CoinsViewCache) (params : ConsensusParams)
    (mtp_at_height : Option (Int → Int)) (skip_scripts : Bool) : Prop :=
  (∀ undo after, connect_block env block height view params mtp_at_height skip_scripts = (.ok undo, after) →
    ∃ subsidy, (get_block_subsidy height params : Except (Failure BlockValidationState) Amount) = .ok subsidy ∧
      after.visible.total ≤ view.visible.total + subsidy) ∧
  NoOverflow .Amount (connect_block env block height view params mtp_at_height skip_scripts).1 ∧
  ((∀ times ∈ mtp_at_height, TimesBounded times) →
    NoOverflow .i64 (connect_block env block height view params mtp_at_height skip_scripts).1)

/-- A checked block over free outpoints does not inflate a view whose flags say
    what its base holds. -/
theorem connect_block_no_inflation (env : Env) (block : Block) (height : Int) (view : CoinsViewCache)
    (params : ConsensusParams) (mtp_at_height : Option (Int → Int)) (skip_scripts check_merkle_root : Bool)
    (hcheck : check_block env block params check_merkle_root = .ok ()) (hcoherent : view.Coherent)
    (hfree : ∀ outpoint ∈ new_outpoints block.vtx, view.visible outpoint = none) :
    NoInflation env block height view params mtp_at_height skip_scripts := by
  have hblock := check_block_ok env hcheck
  refine ⟨fun undo after hconnect => ?_, ?_, fun htimes => ?_⟩
  · exact connect_block_total env hblock hcoherent hfree hconnect
  · exact connect_block_no_overflow (by decide) (by decide) env hblock height view params (by simp) _
  · exact connect_block_no_overflow (by decide) (by decide) env hblock height view params (fun _ => htimes) _

/-- A coinbase that takes the whole subsidy and the fee of the payment. -/
def rewarded_block : Block := sample_block [sample_coinbase [1, 1] 5000000005, sample_payment]

theorem connect_block_no_inflation_payment :
    NoInflation .op_true rewarded_block 1 (CoinsViewCache.new funding_base) .regtest none false := by
  refine connect_block_no_inflation _ _ _ _ _ _ _ true (by decide +kernel) (CoinsViewCache.new_coherent _) ?_
  intro outpoint hmem
  rw [CoinsViewCache.new_visible]
  exact funding_base_other fun heq => absurd (heq ▸ hmem) (by decide +kernel)

/-- Over a view with a coin added past its base, the block spends the added coin
    and the coin of the base comes back. -/
theorem connect_block_no_inflation_fails :
    ¬ ∀ (env : Env) (block : Block) (height : Int) (view : CoinsViewCache) (params : ConsensusParams)
        (mtp_at_height : Option (Int → Int)) (skip_scripts check_merkle_root : Bool),
      (∀ outpoint coin, view.visible outpoint = some coin → money_range coin.tx_out.value = true) →
      check_block env block params check_merkle_root = .ok () →
      (∀ outpoint ∈ new_outpoints block.vtx, view.visible outpoint = none) →
      NoInflation env block height view params mtp_at_height skip_scripts := by
  intro hall
  have hvalues : ∀ outpoint coin, covered_view.visible outpoint = some coin →
      money_range coin.tx_out.value = true := by
    intro outpoint coin hcoin
    by_cases heq : outpoint = funding_outpoint
    · subst heq
      cases hcoin
      decide
    · rw [covered_view_other heq] at hcoin
      cases hcoin
  have hfree : ∀ outpoint ∈ new_outpoints rewarded_block.vtx, covered_view.visible outpoint = none :=
    fun outpoint hmem => covered_view_other fun heq => absurd (heq ▸ hmem) (by decide +kernel)
  have hconnect : (connect_block .op_true rewarded_block 1 covered_view .regtest none false).1 =
      .ok ⟨[⟨[funding_coin 45]⟩]⟩ := by decide +kernel
  obtain ⟨subsidy, hsubsidy, htotal⟩ := (hall .op_true rewarded_block 1 covered_view .regtest none false true
    hvalues (by decide +kernel) hfree).1 _ _ (Prod.ext hconnect rfl)
  cases hsubsidy
  rw [CoinsViewCache.visible_total, CoinsViewCache.visible_total] at htotal
  exact absurd htotal (by decide +kernel)

end qubitcoin.validation
