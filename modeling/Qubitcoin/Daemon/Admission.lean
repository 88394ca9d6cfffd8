import Qubitcoin.Chainstate.BestChain
import Qubitcoin.Daemon.Interface

/-! What `process_transaction` checks, against the rules for a transaction of the next
    block. -/

open qubitcoin primitives script transaction block coins check validation_state chainstate
  qubitcoin.validation mempool

namespace qubitcoin.validation

theorem coins_value_cons (coin : Coin) (rest : List Coin) :
    coins_value (coin :: rest) = coin.tx_out.value + coins_value rest := by
  unfold coins_value
  rw [List.map_cons, List.sum_cons]

theorem coins_value_nonneg {coins : List Coin} (hrange : ∀ coin ∈ coins, money_range coin.tx_out.value = true) :
    0 ≤ coins_value coins := by
  apply List.sum_nonneg
  intro value hmem
  obtain ⟨coin, hcoin, rfl⟩ := List.mem_map.mp hmem
  exact (money_range_iff.mp (hrange coin hcoin)).1

theorem check_input_coins_eq_ok {spend_height : Int} {coins : List Coin} :
    ∀ {total_in : Amount}, money_range total_in = true →
      (∀ coin ∈ coins, Mature spend_height coin ∧ money_range coin.tx_out.value = true) →
      money_range (total_in + coins_value coins) = true →
      check_input_coins spend_height total_in (coins.map some) = .ok (total_in + coins_value coins) := by
  induction coins with
  | nil =>
    intro total_in _ _ _
    simp [check_input_coins, coins_value]
  | cons coin rest ih =>
    intro total_in htotal hcoins hsum
    obtain ⟨hmature, hrange⟩ := hcoins coin (by simp)
    have hrest : ∀ other ∈ rest, Mature spend_height other ∧ money_range other.tx_out.value = true :=
      fun other hmem => hcoins other (List.mem_cons_of_mem _ hmem)
    have hrest_nonneg := coins_value_nonneg fun other hmem => (hrest other hmem).2
    have hbounds := money_range_iff.mp htotal
    have hvalue := money_range_iff.mp hrange
    rw [coins_value_cons, ← add_assoc] at hsum ⊢
    have hsum_bounds := money_range_iff.mp hsum
    have hstep : money_range (total_in + coin.tx_out.value) = true := money_range_iff.mpr (by omega)
    have hunspent : coin.is_spent = false := by
      unfold Coin.is_spent TxOut.is_null
      rw [beq_eq_false_iff_ne]
      intro hnull
      rw [hnull] at hvalue
      exact absurd hvalue.1 (by decide)
    have hfits : IntType.fits .Amount (total_in + coin.tx_out.value) := by
      constructor <;> norm_num <;> omega
    rw [List.map_cons, check_input_coins, hunspent]
    refine bind_eq_ok_iff.mpr ⟨(), rfl, ?_⟩
    refine bind_eq_ok_iff.mpr ⟨(), check_maturity_eq_ok.mpr hmature, ?_⟩
    refine bind_eq_ok_iff.mpr ⟨(), require_eq_ok.mpr hrange, ?_⟩
    refine bind_eq_ok_iff.mpr ⟨_, checked_eq_ok.mpr ⟨rfl, hfits⟩, ?_⟩
    exact bind_eq_ok_iff.mpr ⟨(), require_eq_ok.mpr hstep, ih hstep hrest hsum⟩

end qubitcoin.validation

namespace qubitcoin.check

theorem value_out_cons (output : TxOut) (rest : List TxOut) :
    value_out (output :: rest) = output.value + value_out rest := by
  unfold value_out
  rw [List.map_cons, List.sum_cons]

theorem value_out_nonneg {outputs : List TxOut} (hvalues : ∀ output ∈ outputs, 0 ≤ output.value) :
    0 ≤ value_out outputs := by
  apply List.sum_nonneg
  intro value hmem
  obtain ⟨output, houtput, rfl⟩ := List.mem_map.mp hmem
  exact hvalues output houtput

theorem money_range_of_sum {outputs : List TxOut} (hvalues : ∀ output ∈ outputs, 0 ≤ output.value)
    (hsum : money_range (value_out outputs) = true) : ∀ output ∈ outputs, money_range output.value = true := by
  induction outputs with
  | nil => exact fun _ hmem => nomatch hmem
  | cons head rest ih =>
    have hhead : (0 : Int) ≤ head.value := hvalues head (by simp)
    have hrest : ∀ output ∈ rest, 0 ≤ output.value := fun output hmem => hvalues output (List.mem_cons_of_mem _ hmem)
    have hrest_nonneg := value_out_nonneg hrest
    rw [value_out_cons] at hsum
    have hbounds := money_range_iff.mp hsum
    intro output hmem
    rcases List.mem_cons.mp hmem with rfl | hmem
    · exact money_range_iff.mpr (by omega)
    · exact ih hrest (money_range_iff.mpr (by omega)) output hmem

theorem check_output_values_eq_ok {outputs : List TxOut} :
    ∀ {total : Amount}, money_range total = true → (∀ output ∈ outputs, money_range output.value = true) →
      money_range (total + value_out outputs) = true → check_output_values total outputs = .ok () := by
  induction outputs with
  | nil => exact fun _ _ _ => rfl
  | cons head rest ih =>
    intro total htotal hvalues hsum
    have hhead := hvalues head (by simp)
    have hrest : ∀ output ∈ rest, money_range output.value = true :=
      fun output hmem => hvalues output (List.mem_cons_of_mem _ hmem)
    have hrest_nonneg := value_out_nonneg fun output hmem => (money_range_iff.mp (hrest output hmem)).1
    have hbounds := money_range_iff.mp htotal
    have hvalue := money_range_iff.mp hhead
    rw [value_out_cons, ← add_assoc] at hsum
    have hsum_bounds := money_range_iff.mp hsum
    have hstep : money_range (total + head.value) = true := money_range_iff.mpr (by omega)
    have hfits : IntType.fits .Amount (total + head.value) := by
      constructor <;> norm_num <;> omega
    unfold check_output_values
    refine bind_eq_ok_iff.mpr ⟨(), require_eq_ok.mpr (decide_eq_true hvalue.1), ?_⟩
    refine bind_eq_ok_iff.mpr ⟨(), require_eq_ok.mpr hhead, ?_⟩
    refine bind_eq_ok_iff.mpr ⟨_, checked_eq_ok.mpr ⟨rfl, hfits⟩, ?_⟩
    exact bind_eq_ok_iff.mpr ⟨(), require_eq_ok.mpr hstep, ih hstep hrest hsum⟩

end qubitcoin.check

namespace qubitcoin.mempool

theorem get_fee_nonneg {rate : FeeRate} (hrate : 0 ≤ rate.sats_per_kvb) {virtual_size : Nat} {fee : Amount}
    (hfee : rate.get_fee virtual_size = .ok fee) : 0 ≤ fee := by
  unfold FeeRate.get_fee at hfee
  obtain ⟨numer, hnumer, hfee⟩ := bind_eq_ok_iff.mp hfee
  split at hfee
  · obtain ⟨rounded, hrounded, hfee⟩ := bind_eq_ok_iff.mp hfee
    obtain ⟨rfl, _⟩ := checked_eq_ok.mp hrounded
    cases hfee
    exact Int.ediv_nonneg (by omega) (by decide)
  · next hnot =>
    obtain ⟨rfl, _⟩ := checked_eq_ok.mp hnumer
    cases hfee
    have hnonneg := mul_nonneg hrate (Int.natCast_nonneg virtual_size)
    obtain hzero : rate.sats_per_kvb * virtual_size = 0 := by omega
    rw [hzero]
    decide

theorem check_dust_nonneg {outputs : List TxOut} (hdust : check_dust outputs = .ok ()) :
    ∀ output ∈ outputs, 0 ≤ output.value := by
  induction outputs with
  | nil => exact fun _ hmem => nomatch hmem
  | cons head rest ih =>
    unfold check_dust at hdust
    obtain ⟨threshold, hthreshold, hdust⟩ := bind_eq_ok_iff.mp hdust
    obtain ⟨_, habove, hdust⟩ := bind_eq_ok_iff.mp hdust
    have habove : threshold ≤ head.value := of_decide_eq_true (require_eq_ok.mp habove)
    have hnonneg : 0 ≤ threshold := by
      unfold get_dust_threshold at hthreshold
      split at hthreshold
      · cases hthreshold
        exact le_rfl
      · exact get_fee_nonneg (by decide) hthreshold
    intro output hmem
    rcases List.mem_cons.mp hmem with rfl | hmem
    · exact hnonneg.trans habove
    · exact ih hdust output hmem

theorem accept_to_mempool_not_dust {pool after : TxMemPool} {tx : Transaction} {fee : Amount} {vsize : UInt32}
    {height : Int} (haccept : accept_to_mempool pool tx fee vsize height = .ok after) :
    ∀ output ∈ tx.vout, 0 ≤ output.value := by
  unfold accept_to_mempool at haccept
  obtain ⟨_, hcheck, _⟩ := bind_eq_ok_iff.mp haccept
  unfold TxMemPool.check_candidate at hcheck
  obtain ⟨_, _, hcheck⟩ := bind_eq_ok_iff.mp hcheck
  obtain ⟨_, hdust, _⟩ := bind_eq_ok_iff.mp hcheck
  exact check_dust_nonneg hdust

end qubitcoin.mempool

namespace qubitcoin.qubitcoind.LiveNodeInterface

/-- The coins that a transaction of the next block can spend: those of the tip, and the
    outputs of the pool as that block will add them. -/
def next_coins (self : LiveNodeInterface) : CoinsMap := fun outpoint =>
  match self.chainstate.coins_tip.visible outpoint with
  | some coin => some coin
  | none => (self.mempool.get outpoint.hash).bind fun parent_tx =>
      (parent_tx.vout[outpoint.n.toNat]?).map fun output =>
        .new output (as_u32 (self.chainstate.height + 1)) parent_tx.is_coinbase

theorem next_coins_output (self : LiveNodeInterface) (outpoint : OutPoint) :
    (self.next_coins outpoint).map Coin.tx_out =
      spent_output self.mempool outpoint (self.chainstate.coins_tip.visible outpoint) := by
  unfold next_coins spent_output
  cases self.chainstate.coins_tip.visible outpoint with
  | some coin => rfl
  | none =>
    cases self.mempool.get outpoint.hash with
    | none => rfl
    | some parent_tx =>
      dsimp only [Option.bind_some]
      rw [Option.map_map]
      exact Option.map_id'

/-- What the input loop finds when no input is missing: the output of every input that is
    not null, and their sum. -/
theorem resolve_inputs_ok {mempool : TxMemPool} {vin : List TxIn} :
    ∀ {found result : Resolved} {coins after : CoinsViewCache},
      resolve_inputs mempool vin found coins = (.ok result, after) → coins.ReadsTo after ∧
        found.missing ≤ result.missing ∧ (result.missing = found.missing → ∃ outputs : List TxOut,
          result.spent_outputs = found.spent_outputs ++ outputs ∧
          result.total_in = found.total_in + value_out outputs ∧
          (vin.filter fun input => !input.prevout.is_null).map (fun input =>
            spent_output mempool input.prevout (coins.visible input.prevout)) = outputs.map some) := by
  induction vin with
  | nil =>
    intro found result coins after hresolve
    cases hresolve
    exact ⟨.refl coins, le_rfl, fun _ => ⟨[], by simp, by simp [value_out], rfl⟩⟩
  | cons input rest ih =>
    intro found result coins after hresolve
    unfold resolve_inputs at hresolve
    by_cases hnull : input.prevout.is_null = true
    · rw [if_pos hnull] at hresolve
      rw [List.filter_cons_of_neg (by simp [hnull])]
      exact ih hresolve
    · rw [if_neg hnull] at hresolve
      rw [List.filter_cons_of_pos (by simp [hnull]), List.map_cons]
      have hreads := coins.fetch_coin_reads input.prevout
      have hfetch : coins.fetch_coin input.prevout = (coins.visible input.prevout, (coins.fetch_coin input.prevout).2) :=
        rfl
      rw [hfetch] at hresolve
      dsimp only at hresolve
      cases houtput : spent_output mempool input.prevout (coins.visible input.prevout) with
      | none =>
        rw [houtput] at hresolve
        obtain ⟨hrest, hle, _⟩ := ih hresolve
        refine ⟨hreads.trans hrest, ?_, ?_⟩
        · exact (Nat.le_succ _).trans hle
        · intro hsame
          exact absurd hle (by simp [hsame])
      | some output =>
        rw [houtput] at hresolve
        dsimp only at hresolve
        split at hresolve
        · cases hresolve
        · next total_in htotal =>
          obtain ⟨rfl, _⟩ := checked_eq_ok.mp htotal
          obtain ⟨hrest, hle, hfound⟩ := ih hresolve
          refine ⟨hreads.trans hrest, hle, fun hsame => ?_⟩
          obtain ⟨outputs, hspent, hsum, hmap⟩ := hfound hsame
          refine ⟨output :: outputs, ?_, ?_, ?_⟩
          · rw [hspent, List.append_assoc, List.singleton_append]
          · rw [hsum, value_out_cons, add_assoc]
          · rw [hreads.visible] at hmap
            rw [hmap, List.map_cons]

variable (env : Env)

/-- What an admission says about the transaction, before it is compared with the rules of a
    block. -/
structure Admitted (node : LiveNodeInterface) (tx : Transaction) (coins : List Coin) : Prop where
  not_coinbase : tx.is_coinbase = false
  not_null : ∀ input ∈ tx.vin, input.prevout.is_null = false
  inputs : tx.vin.map (fun input => node.next_coins input.prevout) = coins.map some
  outputs : ∀ output ∈ tx.vout, 0 ≤ output.value

/-- What a transaction goes through that is accepted: its inputs are found, and it is
    admitted to the pool. -/
theorem process_transaction_ok {self after : LiveNodeInterface} {data : List UInt8} {accepted : Bool}
    (hprocess : self.process_transaction env data = (.ok accepted, after)) :
    ∃ tx rest found coins_tip mempool, (deserialize_transaction env.hash256 true).run data = .ok (tx, rest) ∧
      resolve_inputs self.mempool tx.vin ⟨0, [], 0⟩ self.chainstate.coins_tip = (.ok found, coins_tip) ∧
      self.admission env tx found = .ok mempool ∧
      after = { self with chainstate := { self.chainstate with coins_tip }, mempool } := by
  unfold process_transaction at hprocess
  split at hprocess
  · cases hprocess
  · next tx rest hread =>
    cases hresolve : resolve_inputs self.mempool tx.vin ⟨0, [], 0⟩ self.chainstate.coins_tip with
    | mk result coins_tip =>
      rw [hresolve] at hprocess
      cases result with
      | error e => cases hprocess
      | ok found =>
        dsimp only at hprocess
        split at hprocess
        · cases hprocess
        · next mempool hadmission =>
          cases hprocess
          exact ⟨tx, rest, found, coins_tip, mempool, hread, hresolve, hadmission, rfl⟩

theorem admission_ok {self : LiveNodeInterface} {tx : Transaction} {found : Resolved} {after : TxMemPool}
    (hadmission : self.admission env tx found = .ok after) :
    found.missing = 0 ∧ tx.is_coinbase = false ∧ found.spent_outputs.length = tx.vin.length ∧
      ∃ fee, accept_to_mempool self.mempool tx fee (UInt32.ofNat tx.get_virtual_size) self.chainstate.height =
        .ok after := by
  unfold admission at hadmission
  obtain ⟨_, hmissing, hadmission⟩ := bind_eq_ok_iff.mp hadmission
  obtain ⟨_, hscripts, hadmission⟩ := bind_eq_ok_iff.mp hadmission
  obtain ⟨_, _, hadmission⟩ := bind_eq_ok_iff.mp hadmission
  obtain ⟨fee, _, haccept⟩ := bind_eq_ok_iff.mp hadmission
  have hscripts := mapError_eq_ok.mp hscripts
  unfold verify_mempool_tx_scripts at hscripts
  split at hscripts
  · cases hscripts
  · next hcoinbase =>
    split at hscripts
    · cases hscripts
    · next hlength =>
      exact ⟨by simpa using require_eq_ok.mp hmissing, by simpa using hcoinbase, not_not.mp hlength, max 0 fee,
        mapError_eq_ok.mp haccept⟩

/-- Every input of an admitted transaction is found, and none of them is null: as many
    outputs are found as there are inputs. -/
theorem resolved_inputs {self : LiveNodeInterface} {tx : Transaction} {found : Resolved} {coins_tip : CoinsViewCache}
    (hresolve : resolve_inputs self.mempool tx.vin ⟨0, [], 0⟩ self.chainstate.coins_tip = (.ok found, coins_tip))
    (hmissing : found.missing = 0) (hlength : found.spent_outputs.length = tx.vin.length) :
    ∀ input ∈ tx.vin, input.prevout.is_null = false ∧ (self.next_coins input.prevout).isSome = true := by
  obtain ⟨outputs, hspent, _, hmap⟩ := (resolve_inputs_ok hresolve).2.2 hmissing
  have hall : tx.vin.filter (fun input => !input.prevout.is_null) = tx.vin := by
    apply List.Sublist.eq_of_length List.filter_sublist
    have hcount := congrArg List.length hmap
    rw [List.length_map, List.length_map] at hcount
    rw [hcount, ← hlength, hspent, List.nil_append]
  rw [hall] at hmap
  intro input hmem
  refine ⟨by simpa using List.filter_eq_self.mp hall input hmem, ?_⟩
  have hout : spent_output self.mempool input.prevout (self.chainstate.coins_tip.visible input.prevout) ∈
      outputs.map some := hmap ▸ List.mem_map.mpr ⟨input, hmem, rfl⟩
  rw [← next_coins_output] at hout
  obtain ⟨output, _, houtput⟩ := List.mem_map.mp hout
  have hsome : ((self.next_coins input.prevout).map Coin.tx_out).isSome = true := by
    rw [← houtput]
    rfl
  simpa using hsome

theorem map_eq_map_some {A B : Type} {f : A → Option B} {list : List A}
    (hsome : ∀ a ∈ list, (f a).isSome = true) : list.map f = (list.filterMap f).map some := by
  induction list with
  | nil => rfl
  | cons a rest ih =>
    obtain ⟨b, hb⟩ := Option.isSome_iff_exists.mp (hsome a (by simp))
    rw [List.map_cons, List.filterMap_cons_some hb, List.map_cons, hb,
      ih fun other hmem => hsome other (List.mem_cons_of_mem _ hmem)]

theorem process_transaction_admitted {self after : LiveNodeInterface} {data : List UInt8} {accepted : Bool}
    (hprocess : self.process_transaction env data = (.ok accepted, after)) :
    ∃ tx rest coins, (deserialize_transaction env.hash256 true).run data = .ok (tx, rest) ∧ self.Admitted tx coins := by
  obtain ⟨tx, rest, found, coins_tip, mempool, hread, hresolve, hadmission, _⟩ := process_transaction_ok env hprocess
  obtain ⟨hmissing, hcoinbase, hlength, fee, haccept⟩ := admission_ok env hadmission
  have hinputs := resolved_inputs hresolve hmissing hlength
  refine ⟨tx, rest, tx.vin.filterMap fun input => self.next_coins input.prevout, hread, hcoinbase,
    fun input hmem => (hinputs input hmem).1, ?_, accept_to_mempool_not_dust haccept⟩
  exact map_eq_map_some fun input hmem => (hinputs input hmem).2

/-- The rules of a block that the admission does not check. -/
structure MeetsOmitted (node : LiveNodeInterface) (tx : Transaction) : Prop where
  has_inputs : tx.vin ≠ []
  has_outputs : tx.vout ≠ []
  size : (no_witness_buf tx).length * check.WITNESS_SCALE_FACTOR ≤ MAX_BLOCK_WEIGHT
  distinct : (tx.vin.map TxIn.prevout).Nodup
  coins : ∀ input ∈ tx.vin, ∀ coin, node.next_coins input.prevout = some coin →
    Mature (node.chainstate.height + 1) coin ∧ money_range coin.tx_out.value = true
  total_in : money_range (coins_value (tx.vin.filterMap fun input => node.next_coins input.prevout)) = true
  pays : value_out tx.vout ≤ coins_value (tx.vin.filterMap fun input => node.next_coins input.prevout)

/-- The rules for a transaction of the next block: its structure, that it is no coinbase,
    and the checks of its inputs. -/
def ValidNext (self : LiveNodeInterface) (tx : Transaction) : Prop :=
  check_transaction tx = .ok () ∧ tx.is_coinbase = false ∧
    ∃ fee, check_tx_inputs tx self.next_coins (self.chainstate.height + 1) = .ok fee

variable {self : LiveNodeInterface} {tx : Transaction} {coins : List Coin}

theorem Admitted.filterMap_coins (hadmitted : self.Admitted tx coins) :
    (tx.vin.filterMap fun input => self.next_coins input.prevout) = coins := by
  have hcoins := congrArg (List.filterMap id) hadmitted.inputs
  rw [List.filterMap_map, List.filterMap_map] at hcoins
  simpa using hcoins

theorem Admitted.coin_iff (hadmitted : self.Admitted tx coins) {P : Coin → Prop} :
    (∀ input ∈ tx.vin, ∀ coin, self.next_coins input.prevout = some coin → P coin) ↔ ∀ coin ∈ coins, P coin := by
  have hmem : ∀ coin, coin ∈ coins ↔ ∃ input ∈ tx.vin, self.next_coins input.prevout = some coin := by
    intro coin
    have hcoins := congrArg (some coin ∈ ·) hadmitted.inputs
    simpa [List.mem_map, eq_comm] using hcoins.symm
  constructor
  · intro hall coin hcoin
    obtain ⟨input, hinput, hsome⟩ := (hmem coin).mp hcoin
    exact hall input hinput coin hsome
  · intro hall input hinput coin hsome
    exact hall coin ((hmem coin).mpr ⟨input, hinput, hsome⟩)

theorem Admitted.valid_of_meets (hadmitted : self.Admitted tx coins) (hmeets : self.MeetsOmitted tx) :
    self.ValidNext tx := by
  have htotal := hmeets.total_in
  have hpays := hmeets.pays
  rw [hadmitted.filterMap_coins] at htotal hpays
  have hcoins := hadmitted.coin_iff.mp hmeets.coins
  have hin := money_range_iff.mp htotal
  have hout_nonneg := value_out_nonneg hadmitted.outputs
  have hsum : money_range (value_out tx.vout) = true := money_range_iff.mpr (by omega)
  have hvalues := money_range_of_sum hadmitted.outputs hsum
  refine ⟨?_, hadmitted.not_coinbase, coins_value coins - value_out tx.vout, ?_⟩
  · unfold check_transaction
    refine bind_eq_ok_iff.mpr ⟨(), require_eq_ok.mpr (by simpa using hmeets.has_inputs), ?_⟩
    refine bind_eq_ok_iff.mpr ⟨(), require_eq_ok.mpr (by simpa using hmeets.has_outputs), ?_⟩
    refine bind_eq_ok_iff.mpr ⟨(), require_eq_ok.mpr (decide_eq_true hmeets.size), ?_⟩
    refine bind_eq_ok_iff.mpr ⟨(), check_output_values_eq_ok (by decide) hvalues (by simpa using hsum), ?_⟩
    refine bind_eq_ok_iff.mpr ⟨(), require_eq_ok.mpr (decide_eq_true hmeets.distinct), ?_⟩
    rw [hadmitted.not_coinbase, if_neg (by simp), require_eq_ok, List.all_eq_true]
    intro input hmem
    rw [hadmitted.not_null input hmem]
    rfl
  · have hvalue_out : (tx.get_value_out : Except (Failure TxValidationState) Amount) = .ok (0 + value_out tx.vout) :=
      value_out_from_ok (by decide) hvalues (by simpa using hsum)
    have hfits : IntType.fits .Amount (0 + coins_value coins - (0 + value_out tx.vout)) := by
      constructor <;> norm_num <;> omega
    unfold check_tx_inputs check_tx_inputs_with_coins
    rw [hadmitted.not_coinbase, if_neg (by simp), hadmitted.inputs]
    refine bind_eq_ok_iff.mpr ⟨_, check_input_coins_eq_ok (by decide) hcoins (by simpa using htotal), ?_⟩
    refine bind_eq_ok_iff.mpr ⟨_, hvalue_out, ?_⟩
    refine bind_eq_ok_iff.mpr ⟨(), require_eq_ok.mpr (decide_eq_true (by simpa using hpays)), ?_⟩
    refine bind_eq_ok_iff.mpr ⟨_, checked_eq_ok.mpr ⟨rfl, hfits⟩, ?_⟩
    have hfee : money_range (0 + coins_value coins - (0 + value_out tx.vout)) = true :=
      money_range_iff.mpr (by omega)
    refine bind_eq_ok_iff.mpr ⟨(), require_eq_ok.mpr hfee, ?_⟩
    rw [zero_add, zero_add]

theorem Admitted.meets_of_valid (hadmitted : self.Admitted tx coins) (hvalid : self.ValidNext tx) :
    self.MeetsOmitted tx := by
  obtain ⟨hcheck, _, fee, hfee⟩ := hvalid
  have hchecked := check_transaction_ok hcheck
  unfold check_tx_inputs check_tx_inputs_with_coins at hfee
  rw [hadmitted.not_coinbase, if_neg (by simp), hadmitted.inputs] at hfee
  obtain ⟨total_in, hin, hfee⟩ := bind_eq_ok_iff.mp hfee
  obtain ⟨total_out, hout, hfee⟩ := bind_eq_ok_iff.mp hfee
  obtain ⟨_, hbelow, _⟩ := bind_eq_ok_iff.mp hfee
  rw [hchecked.get_value_out] at hout
  cases hout
  have hbelow := of_decide_eq_true (require_eq_ok.mp hbelow)
  obtain ⟨found, hfound, hranges, rfl, htotal⟩ := check_input_coins_ok hin
  obtain rfl : coins = found := List.map_injective_iff.mpr (Option.some_injective _) hfound
  have hmature := check_input_coins_mature hin
  have hnonempty : coins.map some ≠ [] := by
    rw [← hadmitted.inputs]
    simpa using hchecked.vin_nonempty
  rw [zero_add] at hbelow htotal
  refine ⟨hchecked.vin_nonempty, hchecked.vout_nonempty, ?_, hchecked.prevouts_nodup, ?_, ?_, ?_⟩
  · unfold check_transaction at hcheck
    obtain ⟨_, _, hcheck⟩ := bind_eq_ok_iff.mp hcheck
    obtain ⟨_, _, hcheck⟩ := bind_eq_ok_iff.mp hcheck
    obtain ⟨_, hsize, _⟩ := bind_eq_ok_iff.mp hcheck
    exact of_decide_eq_true (require_eq_ok.mp hsize)
  · exact hadmitted.coin_iff.mpr fun coin hmem => ⟨hmature coin hmem, (hranges coin hmem).2⟩
  · rw [hadmitted.filterMap_coins]
    exact htotal hnonempty
  · rw [hadmitted.filterMap_coins]
    exact hbelow

/-- A transaction that is accepted can be confirmed in the next block, as far as its
    structure and amounts go, exactly if it meets the rules that the admission does not
    check: it has inputs and outputs, is not too large, spends no output twice, spends
    coinbases that are deep enough, and its amounts are in range and cover its outputs. -/
theorem admission_sound_iff {self after : LiveNodeInterface} {data : List UInt8}
    (hprocess : self.process_transaction env data = (.ok true, after)) :
    ∃ tx rest, (deserialize_transaction env.hash256 true).run data = .ok (tx, rest) ∧
      (self.ValidNext tx ↔ self.MeetsOmitted tx) := by
  obtain ⟨tx, rest, coins, hread, hadmitted⟩ := process_transaction_admitted env hprocess
  exact ⟨tx, rest, hread, hadmitted.meets_of_valid, hadmitted.valid_of_meets⟩

/-- A node at genesis with one more coin that anyone can spend. -/
def one_coin_node : LiveNodeInterface :=
  of_manager { regtest_manager with
    coins_tip := .new ⟨(∅ : HashMap OutPoint Coin).insert ⟨7, 0⟩ ⟨⟨300000, op_true⟩, 0, false⟩, 0⟩ }

/-- A transaction that spends outputs without a signature. -/
def spend_unsigned (prevouts : List OutPoint) (value : Amount) : Transaction :=
  .new Env.op_true.hash256 2 (prevouts.map fun prevout => ⟨prevout, .new, SEQUENCE_FINAL, .new⟩) [⟨value, op_true⟩] 0

theorem accepted_of_run (node : LiveNodeInterface) (data : List UInt8)
    (hrun : (node.process_transaction .op_true data).1.toOption = some true) :
    ∃ after, node.process_transaction .op_true data = (.ok true, after) := by
  cases hprocess : node.process_transaction .op_true data with
  | mk result after =>
    rw [hprocess] at hrun
    cases result with
    | error e => cases hrun
    | ok accepted =>
      cases hrun
      exact ⟨after, rfl⟩

/-- A plain payment is accepted, and valid in the next block. -/
theorem admission_sound_payment :
    ∃ after tx rest, one_coin_node.process_transaction .op_true
        (serialize_transaction (spend_unsigned [⟨7, 0⟩] 200000) true) = (.ok true, after) ∧
      (deserialize_transaction Env.op_true.hash256 true).run
        (serialize_transaction (spend_unsigned [⟨7, 0⟩] 200000) true) = .ok (tx, rest) ∧
      one_coin_node.ValidNext tx := by
  obtain ⟨after, hprocess⟩ := accepted_of_run one_coin_node
    (serialize_transaction (spend_unsigned [⟨7, 0⟩] 200000) true) (by decide +kernel)
  obtain ⟨tx, rest, hread, hiff⟩ := admission_sound_iff .op_true hprocess
  have hdecode : (deserialize_transaction Env.op_true.hash256 true).run
      (serialize_transaction (spend_unsigned [⟨7, 0⟩] 200000) true) = .ok (spend_unsigned [⟨7, 0⟩] 200000, []) := by
    decide +kernel
  refine ⟨after, tx, rest, hprocess, hread, hiff.mpr ?_⟩
  rw [hdecode] at hread
  cases hread
  have hcoin : one_coin_node.next_coins ⟨7, 0⟩ = some ⟨⟨300000, op_true⟩, 0, false⟩ := by decide +kernel
  refine ⟨by decide, by decide, by decide +kernel, by decide, ?_, by decide +kernel, by decide +kernel⟩
  intro input hmem coin hsome
  obtain rfl := List.mem_singleton.mp hmem
  rw [hcoin] at hsome
  cases hsome
  exact ⟨nofun, by decide⟩

/-- A transaction that spends the output of the first coinbase twice. -/
def double_spend : Transaction :=
  spend_unsigned (List.replicate 2 ⟨(sample_coinbase [0x51, 0x01] 5000000000).txid, 0⟩) 9000000000

/-- It is accepted by a node with one block, and no block can hold it. -/
theorem admission_of_double_spend :
    ∃ (node after : LiveNodeInterface) (data rest : List UInt8) (tx : Transaction),
      node.process_transaction .op_true data = (.ok true, after) ∧
      (deserialize_transaction Env.op_true.hash256 true).run data = .ok (tx, rest) ∧ ¬ node.ValidNext tx := by
  obtain ⟨after, hprocess⟩ := accepted_of_run
    (of_manager (regtest_manager.apply .op_true (.block first_block regtest_now none)))
    (serialize_transaction double_spend true) (by decide +kernel)
  have hread : (deserialize_transaction Env.op_true.hash256 true).run (serialize_transaction double_spend true) =
      .ok (double_spend, []) := by decide +kernel
  refine ⟨_, after, _, [], double_spend, hprocess, hread, ?_⟩
  rintro ⟨hcheck, _⟩
  revert hcheck
  decide +kernel

end qubitcoin.qubitcoind.LiveNodeInterface
