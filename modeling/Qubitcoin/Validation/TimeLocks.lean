import Qubitcoin.Script.Executed
import Qubitcoin.Script.SoftFork
import Qubitcoin.Validation.Scripts

/-! The time locks of scripts in accepted blocks: what the opcodes compare with the transaction,
    and what the block compares the transaction with. -/

open qubitcoin primitives script transaction block coins params check interpreter interpreter.vm
  sign script_check

namespace qubitcoin.script_check

variable {self : TransactionSignatureChecker} {n : Int}

theorem input_eq_ok {input : TxIn} (hinput : self.input = .ok input) : self.tx.vin[self.input_index]? = some input := by
  unfold TransactionSignatureChecker.input at hinput
  split at hinput
  · next found hfound =>
    cases hinput
    exact hfound
  · cases hinput

theorem answer_eq_true {x : Except Panic Bool} (hanswer : answer x = true) : x = .ok true := by
  cases x with
  | ok b => rw [show b = true from hanswer]
  | error why => cases hanswer

theorem check_lock_time_true (hcheck : answer (check_lock_time self n) = true) :
    n ≤ self.tx.lock_time.toNat ∧ ((self.tx.lock_time.toNat : Int) < LOCKTIME_THRESHOLD ↔ n < LOCKTIME_THRESHOLD) ∧
      ∃ input, self.tx.vin[self.input_index]? = some input ∧ input.sequence ≠ SEQUENCE_FINAL := by
  have hcheck := answer_eq_true hcheck
  unfold check_lock_time at hcheck
  split at hcheck
  · cases hcheck
  · dsimp only at hcheck
    split at hcheck
    · cases hcheck
    · next hkind =>
      split at hcheck
      · cases hcheck
      · next hle =>
        obtain ⟨input, hinput, hcheck⟩ := bind_eq_ok_iff.mp hcheck
        refine ⟨Int.not_lt.mp hle, decide_eq_decide.mp (not_not.mp hkind), input, input_eq_ok hinput, ?_⟩
        intro hfinal
        rw [if_pos hfinal] at hcheck
        cases hcheck

/-- A relative lock time that the checker agrees to is at most that of the input and of its
    kind, and that of the input counts. -/
theorem check_sequence_true (henabled : sequence_disabled n = false) (hcheck : answer (check_sequence self n) = true) :
    2 ≤ self.tx.version ∧ ∃ input, self.tx.vin[self.input_index]? = some input ∧
      input.sequence &&& SEQUENCE_LOCKTIME_DISABLE_FLAG = 0 ∧
      UInt32.ofInt n &&& SEQUENCE_LOCKTIME_TYPE_FLAG = input.sequence &&& SEQUENCE_LOCKTIME_TYPE_FLAG ∧
      UInt32.ofInt n &&& SEQUENCE_LOCKTIME_MASK ≤ input.sequence &&& SEQUENCE_LOCKTIME_MASK := by
  have hcheck := answer_eq_true hcheck
  have hnone : UInt32.ofInt n &&& SEQUENCE_LOCKTIME_DISABLE_FLAG = 0 := by
    unfold sequence_disabled at henabled
    exact not_not.mp (bne_iff_ne.not.mp (Bool.eq_false_iff.mp henabled))
  unfold check_sequence at hcheck
  split at hcheck
  · cases hcheck
  · dsimp only at hcheck
    split at hcheck
    · cases hcheck
    · next hversion =>
      rw [if_neg (not_not.mpr hnone)] at hcheck
      obtain ⟨input, hinput, hcheck⟩ := bind_eq_ok_iff.mp hcheck
      refine ⟨UInt32.not_lt.mp hversion, input, input_eq_ok hinput, ?_⟩
      split at hcheck
      · cases hcheck
      · next hcounts =>
        split at hcheck
        · cases hcheck
        · next hkind =>
          split at hcheck
          · cases hcheck
          · next hle => exact ⟨not_not.mp hcounts, not_not.mp hkind, UInt32.not_lt.mp hle⟩

end qubitcoin.script_check

namespace qubitcoin.validation

theorem contextual_check_block_final {env : Env} {block : Block} {prev_height prev_median_time : Int}
    {params : ConsensusParams} (hmedian : params.csv_height ≤ prev_height + 1)
    (hcontextual : contextual_check_block env block prev_height prev_median_time params = .ok ()) :
    ∀ tx ∈ block.vtx, check_lock_time tx (prev_height + 1) prev_median_time = true := by
  unfold contextual_check_block at hcontextual
  obtain ⟨height, hheight, hcontextual⟩ := bind_eq_ok_iff.mp hcontextual
  obtain ⟨rfl, -⟩ := checked_eq_ok.mp hheight
  obtain ⟨_, hfinal, -⟩ := bind_eq_ok_iff.mp hcontextual
  rw [if_pos hmedian] at hfinal
  exact List.all_eq_true.mp (require_eq_ok.mp hfinal)

theorem lock_time_past {tx : Transaction} {height cutoff : Int} {input : TxIn} (hheight : 0 < height)
    (hfinal : check_lock_time tx height cutoff = true) (hinput : input ∈ tx.vin)
    (hsequence : input.sequence ≠ SEQUENCE_FINAL) :
    ((tx.lock_time.toNat : Int) < script_check.LOCKTIME_THRESHOLD → (tx.lock_time.toNat : Int) < height) ∧
      (script_check.LOCKTIME_THRESHOLD ≤ tx.lock_time.toNat → (tx.lock_time.toNat : Int) < cutoff) := by
  have hbound : script_check.LOCKTIME_THRESHOLD = (LOCKTIME_THRESHOLD.toNat : Int) := rfl
  unfold check_lock_time at hfinal
  split at hfinal
  · next hzero =>
    rw [hzero]
    exact ⟨fun _ => hheight, fun hle => absurd hle (by decide)⟩
  · split at hfinal
    · next hall => exact absurd (eq_of_beq (List.all_eq_true.mp hall input hinput)) hsequence
    · split at hfinal
      · next hlow =>
        have hlow := UInt32.lt_iff_toNat_lt.mp hlow
        refine ⟨fun _ => ?_, fun hle => by omega⟩
        have hvalue : as_i32 tx.lock_time = tx.lock_time.toNat := by
          have hsmall : 2 * tx.lock_time.toNat < 2 ^ 32 := by
            have hconst : LOCKTIME_THRESHOLD.toNat = 500000000 := rfl
            omega
          exact BitVec.toInt_eq_toNat_of_lt hsmall
        rw [← hvalue]
        exact of_decide_eq_true hfinal
      · next hhigh =>
        have hhigh := UInt32.le_iff_toNat_le.mp (UInt32.not_lt.mp hhigh)
        exact ⟨fun hlow => by omega, fun _ => of_decide_eq_true hfinal⟩

/-- What a relative lock asks of the coin at a height: an age in blocks or in median time. -/
def LockedUntil (sequence : UInt32) (coin_height : Int) (mtp_at : Int → Int) (locks : SequenceLockPair) : Prop :=
  if sequence &&& SEQUENCE_LOCKTIME_TYPE_FLAG = 0 then
    coin_height + (sequence &&& SEQUENCE_LOCKTIME_MASK).toNat ≤ locks.height + 1
  else mtp_at (max (coin_height - 1) 0) + (sequence &&& SEQUENCE_LOCKTIME_MASK).toNat * 512 ≤ locks.time + 1

theorem sequence_locks_from_cover {S : Type} {mtp_at : Int → Int} {inputs : List (TxIn × Int)} :
    ∀ {locks after : SequenceLockPair} {heights : List Int},
      (sequence_locks_from mtp_at locks inputs : Except (Failure S) _) = .ok (after, heights) →
      (locks.height ≤ after.height ∧ locks.time ≤ after.time) ∧
        ∀ entry ∈ inputs, entry.1.sequence &&& SEQUENCE_LOCKTIME_DISABLE_FLAG = 0 →
          LockedUntil entry.1.sequence entry.2 mtp_at after := by
  induction inputs with
  | nil =>
    intro locks after heights hlocks
    cases hlocks
    exact ⟨⟨le_refl _, le_refl _⟩, nofun⟩
  | cons entry rest ih =>
    obtain ⟨input, coin_height⟩ := entry
    intro locks after heights hlocks
    rw [sequence_locks_from] at hlocks
    split at hlocks
    · next hdisabled =>
      obtain ⟨⟨after, rest_heights⟩, hrest, hlocks⟩ := bind_eq_ok_iff.mp hlocks
      cases hlocks
      obtain ⟨hgrow, hcover⟩ := ih hrest
      refine ⟨hgrow, fun entry hmem hcounts => ?_⟩
      rcases List.mem_cons.mp hmem with rfl | hmem
      · exact absurd hcounts hdisabled
      · exact hcover entry hmem hcounts
    · split at hlocks
      · next hkind =>
        obtain ⟨before, hbefore, hlocks⟩ := bind_eq_ok_iff.mp hlocks
        obtain ⟨rfl, -⟩ := checked_eq_ok.mp hbefore
        obtain ⟨sum, hsum, hlocks⟩ := bind_eq_ok_iff.mp hlocks
        obtain ⟨rfl, -⟩ := checked_eq_ok.mp hsum
        obtain ⟨time, htime, hlocks⟩ := bind_eq_ok_iff.mp hlocks
        obtain ⟨rfl, -⟩ := checked_eq_ok.mp htime
        obtain ⟨⟨after, rest_heights⟩, hrest, hlocks⟩ := bind_eq_ok_iff.mp hlocks
        cases hlocks
        obtain ⟨⟨hheight, htime⟩, hcover⟩ := ih hrest
        dsimp only at hheight htime
        refine ⟨⟨hheight, (le_max_left _ _).trans htime⟩, fun entry hmem hcounts => ?_⟩
        rcases List.mem_cons.mp hmem with rfl | hmem
        · rw [LockedUntil, if_neg hkind]
          dsimp only
          have hlock := (le_max_right _ _).trans htime
          rw [Nat.shiftLeft_eq] at hlock
          push_cast [SEQUENCE_LOCKTIME_GRANULARITY] at hlock
          omega
        · exact hcover entry hmem hcounts
      · next hkind =>
        obtain ⟨sum, hsum, hlocks⟩ := bind_eq_ok_iff.mp hlocks
        obtain ⟨rfl, -⟩ := checked_eq_ok.mp hsum
        obtain ⟨height, hheight, hlocks⟩ := bind_eq_ok_iff.mp hlocks
        obtain ⟨rfl, -⟩ := checked_eq_ok.mp hheight
        obtain ⟨⟨after, rest_heights⟩, hrest, hlocks⟩ := bind_eq_ok_iff.mp hlocks
        cases hlocks
        obtain ⟨⟨hheight, htime⟩, hcover⟩ := ih hrest
        dsimp only at hheight htime
        refine ⟨⟨(le_max_left _ _).trans hheight, htime⟩, fun entry hmem hcounts => ?_⟩
        rcases List.mem_cons.mp hmem with rfl | hmem
        · rw [LockedUntil, if_pos (not_not.mp hkind)]
          dsimp only
          have hlock := (le_max_right _ _).trans hheight
          omega
        · exact hcover entry hmem hcounts

theorem check_connect_tx_sequence_locks {ctx : ConnectContext} {tx : Transaction} {fetched : List (Option Coin)}
    {totals after : ConnectTotals} (hcoinbase : tx.is_coinbase = false)
    (hcheck : check_connect_tx ctx tx fetched totals = .ok after) : check_block_sequence_locks ctx tx fetched = .ok () := by
  rw [check_connect_tx, hcoinbase, if_neg Bool.false_ne_true] at hcheck
  obtain ⟨_, -, hcheck⟩ := bind_eq_ok_iff.mp hcheck
  obtain ⟨_, -, hcheck⟩ := bind_eq_ok_iff.mp hcheck
  obtain ⟨_, -, hcheck⟩ := bind_eq_ok_iff.mp hcheck
  obtain ⟨_, hlocks, -⟩ := bind_eq_ok_iff.mp hcheck
  exact hlocks

/-- The coin at a height is as old as the relative lock in a sequence asks for, in a block at a
    height. The low bits are blocks, or units of 512 seconds of the median times. -/
def Aged (sequence : UInt32) (coin_height height : Int) (mtp_at : Int → Int) : Prop :=
  if sequence &&& SEQUENCE_LOCKTIME_TYPE_FLAG = 0 then
    ((sequence &&& SEQUENCE_LOCKTIME_MASK).toNat : Int) ≤ height - coin_height
  else ((sequence &&& SEQUENCE_LOCKTIME_MASK).toNat * 512 : Int) ≤ mtp_at (height - 1) - mtp_at (max (coin_height - 1) 0)

theorem Aged.mono {sequence lower : UInt32} {coin_height height : Int} {mtp_at : Int → Int}
    (haged : Aged sequence coin_height height mtp_at)
    (hkind : lower &&& SEQUENCE_LOCKTIME_TYPE_FLAG = sequence &&& SEQUENCE_LOCKTIME_TYPE_FLAG)
    (hle : lower &&& SEQUENCE_LOCKTIME_MASK ≤ sequence &&& SEQUENCE_LOCKTIME_MASK) :
    Aged lower coin_height height mtp_at := by
  have hle := UInt32.le_iff_toNat_le.mp hle
  unfold Aged at haged ⊢
  rw [hkind]
  split at haged
  · next hheight =>
    rw [if_pos hheight]
    omega
  · next htime =>
    rw [if_neg htime]
    omega

theorem sequence_locks_aged {ctx : ConnectContext} {tx : Transaction} {fetched : List (Option Coin)} {f : Int → Int}
    {j : Nat} {input : TxIn} {coin : Coin} (hactive : ctx.params.csv_height ≤ ctx.height)
    (hmtp : ctx.mtp_at_height = some f) (hversion : 2 ≤ tx.version)
    (hlocks : check_block_sequence_locks ctx tx fetched = .ok ()) (hinput : tx.vin[j]? = some input)
    (hcoin : fetched[j]? = some (some coin)) (hcounts : input.sequence &&& SEQUENCE_LOCKTIME_DISABLE_FLAG = 0) :
    Aged input.sequence (as_i32 coin.height) ctx.height f := by
  have hflags : ctx.locktime_flags = 1 := if_pos hactive
  unfold check_block_sequence_locks at hlocks
  rw [hflags, if_neg Int.one_ne_zero] at hlocks
  obtain ⟨⟨locks, heights⟩, hcalculate, hlocks⟩ := bind_eq_ok_iff.mp hlocks
  obtain ⟨prev_block_mtp, hprev, hlocks⟩ := bind_eq_ok_iff.mp hlocks
  rw [ConnectContext.prev_block_mtp, hmtp] at hprev
  obtain ⟨parent, hparent, hprev⟩ := bind_eq_ok_iff.mp hprev
  obtain ⟨rfl, -⟩ := checked_eq_ok.mp hparent
  cases hprev
  have hevaluate := require_eq_ok.mp hlocks
  rw [evaluate_sequence_locks, Bool.and_eq_true, decide_eq_true_eq, decide_eq_true_eq] at hevaluate
  rw [hmtp, Option.getD_some] at hcalculate
  unfold calculate_sequence_locks at hcalculate
  split at hcalculate
  · cases hcalculate
  · rw [if_neg (not_not.mpr ⟨hversion, by decide⟩)] at hcalculate
    have hmem : (input, as_i32 coin.height) ∈ tx.vin.zip
        (fetched.map fun coin => (coin.map fun coin => as_i32 coin.height).getD 0) := by
      refine List.mem_iff_getElem?.mpr ⟨j, ?_⟩
      rw [List.getElem?_zip_eq_some, List.getElem?_map, hcoin]
      exact ⟨hinput, rfl⟩
    have hlocked := (sequence_locks_from_cover hcalculate).2 _ hmem hcounts
    unfold LockedUntil at hlocked
    unfold Aged
    dsimp only at hlocked
    split at hlocked
    · next hheight =>
      rw [if_pos hheight]
      omega
    · next htime =>
      rw [if_neg htime]
      omega

def input_checker (secp : sign.Secp256k1) (tx : Transaction) (j : Nat) (coin : Coin) (spent_coins : List Coin) :
    vm.SignatureChecker :=
  (SignatureChecker.TransactionSignatureChecker tx j coin.tx_out.value ⟨tx, spent_coins.map Coin.tx_out⟩).to_vm secp

/-- What the time locks of an input mean in a block at a height: whatever script runs with the
    checker of the input under the flags, the lock times it executes are in the past, and the
    coin is as old as its relative lock times ask for. -/
structure Honoured (secp : sign.Secp256k1) (flags : UInt32) (checker : vm.SignatureChecker) (height coin_height : Int)
    (mtp_at : Int → Int) : Prop where
  lock_time : ∀ sigversion script start n,
    Executes secp.toCrypto checker flags sigversion script start OP_CHECKLOCKTIMEVERIFY n →
      (n < 500000000 → n < height) ∧ (500000000 ≤ n → n < mtp_at (height - 1))
  sequence : ∀ sigversion script start n, sequence_disabled n = false →
    Executes secp.toCrypto checker flags sigversion script start OP_CHECKSEQUENCEVERIFY n →
      Aged (UInt32.ofInt n) coin_height height mtp_at

/-- Every time lock that the scripts of an input come to is executed. -/
def NotPassedOver (secp : sign.Secp256k1) (flags : UInt32) (checker : vm.SignatureChecker) (input : TxIn) (coin : Coin) : Prop :=
  ∀ sigversion script stack exec_data opcode state n,
    Evaluated secp.toCrypto checker flags input.script_sig coin.tx_out.script_pubkey input.witness sigversion script stack
      exec_data →
    Reaches secp.toCrypto checker flags sigversion script (.start stack exec_data) opcode state →
    lock_operand (require_minimal flags) state.stack = .ok n →
    Executes secp.toCrypto checker flags sigversion script (.start stack exec_data) opcode n

theorem not_passed_over {secp : sign.Secp256k1} {flags : UInt32} {checker : script_check.SignatureChecker} {input : TxIn}
    {coin : Coin} (hverified : (run_verify_script secp input.script_sig coin.tx_out.script_pubkey input.witness flags
      checker).1 = true) : NotPassedOver secp flags (checker.to_vm secp) input coin := by
  intro sigversion script stack exec_data opcode state n hevaluated hreaches hoperand
  have hok : verify_script secp.toCrypto (checker.to_vm secp) flags input.script_sig coin.tx_out.script_pubkey
      input.witness = .ok () := by
    unfold run_verify_script at hverified
    split at hverified
    · next hok => exact hok
    · cases hverified
    · cases hverified
  obtain ⟨result, heval⟩ := hevaluated.eval_ok hok
  obtain ⟨next, hnext⟩ := hreaches.step_ok heval
  exact ⟨state, next, hreaches, hoperand, hnext⟩

/-- The time locks in the scripts of a block that is accepted at a height are honoured. Where the
    scripts are verified, no time lock that they come to is passed over. -/
theorem time_locks_honoured (env : Env) (secp : sign.Secp256k1) (block : Block) (prev_height : Int) (view after : CoinsViewCache)
    (params : ConsensusParams) (mtp_at : Int → Int) (skip_scripts : Bool) (undo : BlockUndo) (flags : UInt32)
    (hparent : 0 ≤ prev_height)
    (hflags : flags = get_block_script_flags (prev_height + 1) (block.block_hash env.hash256) params)
    (hcltv : contains flags ScriptVerifyFlags.CHECKLOCKTIMEVERIFY = true)
    (hcsv : contains flags ScriptVerifyFlags.CHECKSEQUENCEVERIFY = true)
    (hmedian : params.csv_height ≤ prev_height + 1)
    (hcontextual : contextual_check_block (env.with_interpreter secp) block prev_height (mtp_at prev_height) params = .ok ())
    (hconnect : connect_block (env.with_interpreter secp) block (prev_height + 1) view params (some mtp_at) skip_scripts =
      (.ok undo, after)) :
    ∀ k tx, block.vtx[k]? = some tx → tx.is_coinbase = false → ∀ j input, tx.vin[j]? = some input →
      ∃ (coin : Coin) (spent_coins : List Coin),
        (tx.vin.map fun input => (view_before_tx (env.with_interpreter secp) block (prev_height + 1) view params
          (some mtp_at) k).visible input.prevout) = spent_coins.map some ∧
        spent_coins[j]? = some coin ∧
        Honoured secp flags (input_checker secp tx j coin spent_coins) (prev_height + 1) (as_i32 coin.height) mtp_at ∧
        (skip_scripts = false → (∃ check_merkle_root, check_block env block params check_merkle_root = .ok ()) →
          NotPassedOver secp flags (input_checker secp tx j coin spent_coins) input coin) := by
  intro k tx htx hcoinbase j input hinput
  obtain ⟨totals, -, hloop, -⟩ := connect_block_ok _ hconnect
  obtain ⟨before_totals, before_undo, before, mid_totals, mid, others, hbefore, hpass, -⟩ := connect_txs_getElem hloop htx
  have hview : view_before_tx (env.with_interpreter secp) block (prev_height + 1) view params (some mtp_at) k = before := by
    rw [view_before_tx, hbefore]
  obtain ⟨hcheck, -⟩ := connect_tx_checked hpass
  have hlocks := check_connect_tx_sequence_locks hcoinbase hcheck
  obtain ⟨spent_coins, -, hfetched, -⟩ := check_connect_tx_ok hcoinbase hcheck
  have hspent : (tx.vin.map fun input => before.visible input.prevout) = spent_coins.map some := by
    rw [← hfetched, input_coins, hcoinbase, if_neg Bool.false_ne_true]
  have hat := congrArg (fun list => list[j]?) hspent
  simp only [List.getElem?_map, hinput, Option.map_some] at hat
  obtain ⟨coin, hcoin, hvisible⟩ := Option.map_eq_some_iff.mp hat.symm
  refine ⟨coin, spent_coins, by rw [hview]; exact hspent, hcoin, ⟨?_, ?_⟩, ?_⟩
  · intro sigversion script start n hexecutes
    obtain ⟨hlow, hchecked⟩ := hexecutes.check_lock_time hcltv
    obtain ⟨hle, hkind, locked, hlocked, hsequence⟩ := check_lock_time_true hchecked
    have hfinal := contextual_check_block_final hmedian hcontextual tx (List.mem_of_getElem? htx)
    obtain ⟨hpast, hpast_time⟩ := lock_time_past (by omega) hfinal (List.mem_of_getElem? hlocked) hsequence
    rw [Int.add_sub_cancel]
    refine ⟨fun hheight => ?_, fun htime => ?_⟩
    · have hlt := hpast (hkind.mpr hheight)
      dsimp only at hle
      omega
    · have hlt := hpast_time (Int.not_lt.mp fun hlow => absurd (hkind.mp hlow) (Int.not_lt.mpr htime))
      dsimp only at hle
      omega
  · intro sigversion script start n henabled hexecutes
    obtain ⟨hversion, locked, hlocked, hcounts, hkind, hle⟩ :=
      check_sequence_true henabled (hexecutes.check_sequence hcsv henabled)
    have hfetched_coin : (input_coins before.visible tx)[j]? = some (some coin) := by
      rw [hfetched, List.getElem?_map, hcoin]
      rfl
    exact (sequence_locks_aged hmedian rfl hversion hlocks hlocked hfetched_coin hcounts).mono hkind hle
  · rintro rfl ⟨check_merkle_root, hblock⟩
    obtain ⟨other, coins, hcoins, hother, hverified⟩ := connect_block_input_verified _
      (check_block_ok env hblock).coinbase_first hconnect htx hcoinbase hinput
    -- Both lists hold the coins that the inputs see.
    rw [hview, hspent] at hcoins
    have hsame : spent_coins = coins := List.map_injective_iff.mpr (Option.some_injective Coin) hcoins
    rw [hview, ← hvisible] at hother
    cases hother
    rw [← hsame] at hverified
    rw [hflags]
    exact not_passed_over hverified

def zero_secp : sign.Secp256k1 where
  toCrypto := zero_crypto
  public_key_from_slice _ := none
  from_compact _ := none
  verify_ecdsa _ _ _ := false
  schnorr_from_slice _ := none
  verify_schnorr _ _ _ := false

/-- `OP_0 OP_CHECKLOCKTIMEVERIFY OP_CHECKSEQUENCEVERIFY OP_DROP OP_1`. -/
def locked_script : Script := ⟨[0x00, 0xb1, 0xb2, 0x75, 0x51]⟩

def locked_coin : Coin := ⟨⟨50, locked_script⟩, 0, false⟩

def locked_payment : Transaction :=
  .new Env.op_true.hash256 2 [⟨funding_outpoint, ⟨[]⟩, 0, .new⟩] [⟨40, op_true⟩] 0

def locked_block : Block := sample_block [sample_coinbase [0x51, 1] 50, locked_payment]

def locked_view : CoinsViewCache := .new ⟨AList.singleton funding_outpoint locked_coin, 0⟩

theorem time_locks_honoured_payment :
    Honoured zero_secp (get_block_script_flags 1 (locked_block.block_hash crypto.sha256d) .regtest)
      (input_checker zero_secp locked_payment 0 locked_coin [locked_coin]) 1 0 (fun _ => 0) ∧
    Executes zero_secp.toCrypto (input_checker zero_secp locked_payment 0 locked_coin [locked_coin])
      (get_block_script_flags 1 (locked_block.block_hash crypto.sha256d) .regtest) .Base locked_script
      (.start [] .default) OP_CHECKLOCKTIMEVERIFY 0 := by
  have hcontextual : contextual_check_block (Env.op_true.with_interpreter zero_secp) locked_block 0 0 .regtest =
      .ok () := by decide +kernel
  have hconnect : (connect_block (Env.op_true.with_interpreter zero_secp) locked_block 1 locked_view .regtest
      (some fun _ => 0) false).1 = .ok ⟨[⟨[locked_coin]⟩]⟩ := by
    decide +kernel
  have hcoins : (locked_payment.vin.map fun input => (view_before_tx (Env.op_true.with_interpreter zero_secp) locked_block 1
      locked_view .regtest (some fun _ => 0) 1).visible input.prevout) = [some locked_coin] := by
    decide +kernel
  obtain ⟨coin, spent_coins, hspent, hcoin, hhonoured, -⟩ := time_locks_honoured .op_true zero_secp locked_block 0
    locked_view _ .regtest (fun _ => 0) false _ _ (by decide) rfl (by decide +kernel) (by decide +kernel) (by decide)
    hcontextual (Prod.ext hconnect rfl) 1 locked_payment rfl rfl 0 _ rfl
  have hsame : spent_coins = [locked_coin] := by
    refine List.map_injective_iff.mpr (Option.some_injective Coin) ?_
    rw [← hspent]
    exact hcoins
  subst hsame
  cases hcoin
  exact ⟨hhonoured, _, _, ⟨.step .start (by decide) rfl, ⟨_, _, rfl⟩, rfl⟩, rfl, rfl⟩

end qubitcoin.validation
