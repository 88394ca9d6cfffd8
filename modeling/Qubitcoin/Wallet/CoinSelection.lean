import Qubitcoin.Lib.Median
import Qubitcoin.Wallet.Tracking

/-! `qubitcoin-wallet/coin_selection.rs`: which unspent outputs a payment spends. -/

open qubitcoin primitives script transaction wallet

namespace qubitcoin.coin_selection

structure CoinSelectionResult where
  selected : List WalletUtxo
  total_value : Amount
  fee : Amount
  change : Amount
  deriving DecidableEq

/-- The result of arithmetic at a machine type whose exact value is `x`. -/
def exact_at (type : IntType) (x : Int) : Except Panic Int := if type.fits x then .ok x else .error (.overflow type)

/-- `x as i64` for a `usize`. -/
def as_i64 (x : Int) : Int := x.bmod (2 ^ 64)

def value (utxo : WalletUtxo) : Amount := utxo.tx_out.value

/-- The size of a transaction: overhead, inputs of 68 and outputs of 31 virtual bytes. -/
def vsize (num_inputs num_outputs : Nat) : Int := 11 + num_inputs * 68 + num_outputs * 31

def estimate_vsize (num_inputs num_outputs : Nat) : Except Panic Int := exact_at .usize (vsize num_inputs num_outputs)

def estimate_fee (num_inputs num_outputs : Nat) (fee_rate_per_vb : Int) : Except Panic Amount := do
  let size ← estimate_vsize num_inputs num_outputs
  exact_at .i64 (as_i64 size * fee_rate_per_vb)

/-- Take coins in their order until their total covers the target and the fee of a payment and a
    change output. -/
def accumulate (target : Amount) (fee_rate_per_vb : Int) :
    List WalletUtxo → (selected : List WalletUtxo) → (total : Amount) → Except Panic (Option CoinSelectionResult)
  | [], _, _ => .ok none
  | utxo :: rest, selected, total => do
    let selected := selected ++ [utxo]
    let total ← exact_at .Amount (total + value utxo)
    let fee ← estimate_fee selected.length 2 fee_rate_per_vb
    let needed ← exact_at .Amount (target + fee)
    if total ≥ needed then
      let change ← exact_at .Amount (total - needed)
      .ok (some ⟨selected, total, fee, change⟩)
    else accumulate target fee_rate_per_vb rest selected total

/-- Coins with the largest first; coins of one value stay in their order. -/
def sorted_desc (utxos : List WalletUtxo) : List WalletUtxo := utxos.insertionSort fun a b => value a ≥ value b

def sorted_asc (utxos : List WalletUtxo) : List WalletUtxo := utxos.insertionSort fun a b => value a ≤ value b

def select_coins (utxos : List WalletUtxo) (target : Amount) (fee_rate_per_vb : Int) :
    Except Panic (Option CoinSelectionResult) :=
  if utxos.isEmpty || target ≤ 0 then .ok none else accumulate target fee_rate_per_vb (sorted_desc utxos) [] 0

/-- The first coin that is close to what is needed; the excess is paid as a fee. -/
def single_coin (fee needed cost_of_change : Amount) : List WalletUtxo → Except Panic (Option CoinSelectionResult)
  | [] => .ok none
  | utxo :: rest =>
    if value utxo ≥ needed then do
      let excess ← exact_at .Amount (value utxo - needed)
      if excess ≤ cost_of_change then
        let total_fee ← exact_at .Amount (fee + excess)
        .ok (some ⟨[utxo], value utxo, total_fee, 0⟩)
      else single_coin fee needed cost_of_change rest
    else single_coin fee needed cost_of_change rest

/-- Change that costs more than it is worth is paid as a fee. -/
def donate_change (cost_of_change : Amount) (result : CoinSelectionResult) : Except Panic CoinSelectionResult :=
  if result.change ≤ cost_of_change then do
    let total_fee ← exact_at .Amount (result.fee + result.change)
    .ok { result with fee := total_fee, change := 0 }
  else .ok result

/-- Select a single coin that is close to the target, else the smallest coins. -/
def select_coins_bnb (utxos : List WalletUtxo) (target : Amount) (fee_rate_per_vb : Int) (cost_of_change : Amount) :
    Except Panic (Option CoinSelectionResult) :=
  if utxos.isEmpty || target ≤ 0 then .ok none
  else do
    let fee_one_input_one_output ← estimate_fee 1 1 fee_rate_per_vb
    let needed_exact ← exact_at .Amount (target + fee_one_input_one_output)
    match ← single_coin fee_one_input_one_output needed_exact cost_of_change (sorted_asc utxos).reverse with
    | some result => .ok (some result)
    | none =>
      match ← accumulate target fee_rate_per_vb (sorted_asc utxos) [] 0 with
      | none => .ok none
      | some result => (donate_change cost_of_change result).map some

def total (coins : List WalletUtxo) : Int := (coins.map value).sum

/-- What a number of inputs has to cover: the target and the fee for two outputs. -/
def needed (target rate : Int) (num_inputs : Nat) : Int := target + vsize num_inputs 2 * rate

def Covers (target rate : Int) (coins : List WalletUtxo) : Prop := needed target rate coins.length ≤ total coins

instance (target rate : Int) (coins : List WalletUtxo) : Decidable (Covers target rate coins) :=
  inferInstanceAs (Decidable (_ ≤ _))

/-- Some coins cover the target and their fee. -/
def Sufficient (target rate : Int) (utxos : List WalletUtxo) : Prop :=
  ∃ coins, coins ≠ [] ∧ coins.Subperm utxos ∧ Covers target rate coins

variable {target rate : Int} {utxos coins selected rest : List WalletUtxo}

theorem ok_bind {E A B : Type} (a : A) (f : A → Except E B) : (Except.ok a >>= f) = f a := rfl

theorem exact_at_eq {type : IntType} {x : Int} (hfits : type.fits x) : exact_at type x = .ok x := if_pos hfits

theorem total_append (coins more : List WalletUtxo) : total (coins ++ more) = total coins + total more := by
  unfold total
  rw [List.map_append, List.sum_append]

theorem total_concat (coins : List WalletUtxo) (utxo : WalletUtxo) : total (coins ++ [utxo]) = total coins + value utxo := by
  rw [total_append]
  unfold total
  rw [List.map_singleton, List.sum_singleton]

theorem total_nonneg (hvalues : ∀ utxo ∈ coins, 0 ≤ value utxo) : 0 ≤ total coins :=
  List.sum_nonneg fun x hx => by
    obtain ⟨utxo, hmem, rfl⟩ := List.mem_map.mp hx
    exact hvalues utxo hmem

theorem total_le_of_subperm (hvalues : ∀ utxo ∈ utxos, 0 ≤ value utxo) (hsub : coins.Subperm utxos) :
    total coins ≤ total utxos := by
  obtain ⟨ordered, hperm, hordered⟩ := hsub
  obtain ⟨others, hothers⟩ := hordered.exists_perm_append
  have hsplit : total utxos = total coins + total others := by
    have hsum := ((hothers.trans (hperm.append_right others)).map value).sum_eq
    rw [List.map_append, List.sum_append] at hsum
    exact hsum
  have hnonneg : 0 ≤ total others :=
    total_nonneg fun utxo hmem => hvalues utxo (hothers.mem_iff.mpr (List.mem_append_right ordered hmem))
  omega

theorem vsize_pos (num_inputs num_outputs : Nat) : 0 < vsize num_inputs num_outputs := by
  unfold vsize
  omega

theorem vsize_mono {inputs more outputs others : Nat} (hinputs : inputs ≤ more) (houtputs : outputs ≤ others) :
    vsize inputs outputs ≤ vsize more others := by
  unfold vsize
  omega

theorem needed_mono {inputs more : Nat} (hrate : 0 ≤ rate) (hinputs : inputs ≤ more) :
    needed target rate inputs ≤ needed target rate more := by
  unfold needed
  have := mul_le_mul_of_nonneg_right (vsize_mono hinputs (Nat.le_refl 2)) hrate
  omega

theorem as_i64_eq {x : Int} (hlow : 0 ≤ x) (hhigh : x < 2 ^ 63) : as_i64 x = x := by
  unfold as_i64
  exact Int.bmod_eq_of_le (by omega) (by omega)

theorem estimate_fee_eq {inputs outputs : Nat} (hsize : vsize inputs outputs < 2 ^ 63)
    (hfee : IntType.i64.fits (vsize inputs outputs * rate)) :
    estimate_fee inputs outputs rate = .ok (vsize inputs outputs * rate) := by
  have hpos := vsize_pos inputs outputs
  have hcast := as_i64_eq (Int.le_of_lt hpos) hsize
  have hfits : IntType.usize.fits (vsize inputs outputs) := ⟨Int.le_of_lt hpos, by omega⟩
  rw [estimate_fee, estimate_vsize, exact_at_eq hfits, ok_bind, hcast, exact_at_eq hfee]

/-- The sums that are computed for some coins are within their types. -/
structure Fits (target rate : Int) (coins : List WalletUtxo) : Prop where
  size : vsize coins.length 2 < 2 ^ 63
  needed : IntType.Amount.fits (needed target rate coins.length)
  total : IntType.Amount.fits (total coins)

theorem Fits.fee (hfits : Fits target rate coins) (hrate : 0 ≤ rate) (htarget : 0 < target) :
    estimate_fee coins.length 2 rate = .ok (vsize coins.length 2 * rate) := by
  have hlow : 0 ≤ vsize coins.length 2 * rate := mul_nonneg (Int.le_of_lt (vsize_pos _ _)) hrate
  obtain ⟨-, hhigh⟩ := hfits.needed
  unfold coin_selection.needed at hhigh
  exact estimate_fee_eq hfits.size ⟨by omega, by omega⟩

/-- The result for coins that cover the target and their fee. -/
def result_of (target rate : Int) (coins : List WalletUtxo) : CoinSelectionResult :=
  ⟨coins, total coins, vsize coins.length 2 * rate, total coins - needed target rate coins.length⟩

theorem accumulate_cons {utxo : WalletUtxo} (hrate : 0 ≤ rate) (htarget : 0 < target)
    (hfits : Fits target rate (selected ++ [utxo])) :
    accumulate target rate (utxo :: rest) selected (total selected) =
      if Covers target rate (selected ++ [utxo]) then .ok (some (result_of target rate (selected ++ [utxo])))
      else accumulate target rate rest (selected ++ [utxo]) (total (selected ++ [utxo])) := by
  have hfee := hfits.fee hrate htarget
  obtain ⟨-, hneeded, htotal⟩ := hfits
  have hlow : 0 < needed target rate (selected ++ [utxo]).length :=
    Int.add_pos_of_pos_of_nonneg htarget (mul_nonneg (Int.le_of_lt (vsize_pos _ _)) hrate)
  have hsum : IntType.Amount.fits (total selected + value utxo) := by
    rw [← total_concat]
    exact htotal
  have hexact : target + vsize (selected ++ [utxo]).length 2 * rate = needed target rate (selected ++ [utxo]).length := rfl
  rw [accumulate, exact_at_eq hsum, ok_bind, hfee, ok_bind, hexact, exact_at_eq hneeded, ok_bind,
    ← total_concat]
  by_cases hcovers : Covers target rate (selected ++ [utxo])
  · have hle : total (selected ++ [utxo]) ≥ needed target rate (selected ++ [utxo]).length := hcovers
    have hchange : IntType.Amount.fits (total (selected ++ [utxo]) - needed target rate (selected ++ [utxo]).length) := by
      obtain ⟨-, hhigh⟩ := htotal
      exact ⟨by omega, by omega⟩
    rw [if_pos hle, if_pos hcovers, exact_at_eq hchange, ok_bind, result_of]
  · have hnot : ¬ total (selected ++ [utxo]) ≥ needed target rate (selected ++ [utxo]).length := hcovers
    rw [if_neg hnot, if_neg hcovers]

theorem append_take_succ (utxo : WalletUtxo) (n : Nat) :
    selected ++ (utxo :: rest).take (n + 1) = selected ++ [utxo] ++ rest.take n := by
  rw [List.take_succ_cons, List.append_assoc, List.singleton_append]

theorem accumulate_some (hrate : 0 ≤ rate) (htarget : 0 < target) {k : Nat} (hk : k < rest.length)
    (hfits : ∀ j ≤ k, Fits target rate (selected ++ rest.take (j + 1)))
    (hshort : ∀ j < k, ¬ Covers target rate (selected ++ rest.take (j + 1)))
    (hcovers : Covers target rate (selected ++ rest.take (k + 1))) :
    accumulate target rate rest selected (total selected) =
      .ok (some (result_of target rate (selected ++ rest.take (k + 1)))) := by
  induction rest generalizing selected k with
  | nil => cases hk
  | cons utxo rest ih =>
    have hone : selected ++ (utxo :: rest).take 1 = selected ++ [utxo] := rfl
    have hfirst := hfits 0 (Nat.zero_le k)
    rw [hone] at hfirst
    rw [accumulate_cons hrate htarget hfirst]
    cases k with
    | zero =>
      rw [hone] at hcovers
      rw [if_pos hcovers, hone]
    | succ k =>
      have hnot := hshort 0 (Nat.succ_pos k)
      rw [hone] at hnot
      rw [if_neg hnot, append_take_succ]
      rw [append_take_succ] at hcovers
      refine ih (Nat.lt_of_succ_lt_succ hk) (fun j hj => ?_) (fun j hj => ?_) hcovers
      · rw [← append_take_succ]
        exact hfits (j + 1) (Nat.succ_le_succ hj)
      · rw [← append_take_succ]
        exact hshort (j + 1) (Nat.succ_lt_succ hj)

theorem accumulate_none (hrate : 0 ≤ rate) (htarget : 0 < target)
    (hfits : ∀ j < rest.length, Fits target rate (selected ++ rest.take (j + 1)))
    (hshort : ∀ j < rest.length, ¬ Covers target rate (selected ++ rest.take (j + 1))) :
    accumulate target rate rest selected (total selected) = .ok none := by
  induction rest generalizing selected with
  | nil => rfl
  | cons utxo rest ih =>
    have hone : selected ++ (utxo :: rest).take 1 = selected ++ [utxo] := rfl
    have hfirst := hfits 0 (Nat.succ_pos _)
    have hnot := hshort 0 (Nat.succ_pos _)
    rw [hone] at hfirst hnot
    rw [accumulate_cons hrate htarget hfirst, if_neg hnot]
    refine ih (fun j hj => ?_) (fun j hj => ?_)
    · rw [← append_take_succ]
      exact hfits (j + 1) (Nat.succ_lt_succ hj)
    · rw [← append_take_succ]
      exact hshort (j + 1) (Nat.succ_lt_succ hj)

theorem accumulate_first (hrate : 0 ≤ rate) (htarget : 0 < target)
    (hfits : ∀ j < coins.length, Fits target rate (coins.take (j + 1))) :
    (∃ k < coins.length, Covers target rate (coins.take (k + 1)) ∧
        (∀ j < k, ¬ Covers target rate (coins.take (j + 1))) ∧
        accumulate target rate coins [] 0 = .ok (some (result_of target rate (coins.take (k + 1))))) ∨
      (∀ j < coins.length, ¬ Covers target rate (coins.take (j + 1))) ∧ accumulate target rate coins [] 0 = .ok none := by
  by_cases hsome : ∃ k, k < coins.length ∧ Covers target rate (coins.take (k + 1))
  · have hfirst := Nat.find_spec hsome
    have hshort : ∀ j < Nat.find hsome, ¬ Covers target rate (coins.take (j + 1)) :=
      fun j hj hcovers => Nat.find_min hsome hj ⟨hj.trans hfirst.1, hcovers⟩
    exact .inl ⟨Nat.find hsome, hfirst.1, hfirst.2, hshort,
      @accumulate_some target rate [] coins hrate htarget _ hfirst.1 (fun j hj => hfits j (hj.trans_lt hfirst.1)) hshort
        hfirst.2⟩
  · have hshort : ∀ j < coins.length, ¬ Covers target rate (coins.take (j + 1)) :=
      fun j hj hcovers => hsome ⟨j, hj, hcovers⟩
    exact .inr ⟨hshort, @accumulate_none target rate [] coins hrate htarget hfits hshort⟩

instance : Std.Total fun a b : WalletUtxo => value a ≥ value b := ⟨fun a b => le_total (value b) (value a)⟩

instance : IsTrans WalletUtxo fun a b => value a ≥ value b := ⟨fun _ _ _ hab hbc => le_trans hbc hab⟩

theorem sorted_desc_perm (utxos : List WalletUtxo) : (sorted_desc utxos).Perm utxos := List.perm_insertionSort _ utxos

theorem total_le_take (hsub : coins.Subperm utxos) : total coins ≤ total ((sorted_desc utxos).take coins.length) :=
  greedy.sum_map_le_sum_map_take (List.pairwise_insertionSort _ utxos)
    (hsub.trans (sorted_desc_perm utxos).symm.subperm)

theorem covers_take (hsub : coins.Subperm utxos) (hcovers : Covers target rate coins) :
    Covers target rate ((sorted_desc utxos).take coins.length) := by
  have hlength : ((sorted_desc utxos).take coins.length).length = coins.length := by
    rw [List.length_take, (sorted_desc_perm utxos).length_eq, Nat.min_eq_left hsub.length_le]
  unfold Covers at hcovers ⊢
  rw [hlength]
  exact hcovers.trans (total_le_take hsub)

/-- All sums over coins of the wallet are within their types. -/
structure SumsFit (target rate : Int) (utxos : List WalletUtxo) : Prop where
  size : vsize utxos.length 2 < 2 ^ 63
  needed : IntType.Amount.fits (needed target rate utxos.length)
  total : ∀ coins, coins.Subperm utxos → IntType.Amount.fits (total coins)

theorem SumsFit.fits (hfit : SumsFit target rate utxos) (hrate : 0 ≤ rate) (htarget : 0 < target)
    (hsub : coins.Subperm utxos) : Fits target rate coins where
  size := (vsize_mono hsub.length_le (Nat.le_refl 2)).trans_lt hfit.size
  needed := by
    obtain ⟨-, hhigh⟩ := hfit.needed
    have hle := @needed_mono target rate _ _ hrate hsub.length_le
    have hfee : 0 ≤ vsize coins.length 2 * rate := mul_nonneg (Int.le_of_lt (vsize_pos _ _)) hrate
    have hlow : 0 < coin_selection.needed target rate coins.length := Int.add_pos_of_pos_of_nonneg htarget hfee
    exact ⟨by omega, by omega⟩
  total := hfit.total coins hsub

/-- What a selection is: coins of the wallet that pay the target, the fee for their number and the
    change. -/
structure Selects (target rate : Int) (utxos : List WalletUtxo) (result : CoinSelectionResult) : Prop where
  selected : result.selected.Subperm utxos
  total_value : result.total_value = total result.selected
  fee : estimate_fee result.selected.length 2 rate = .ok result.fee
  exact : result.total_value = target + result.fee + result.change
  change : 0 ≤ result.change

theorem result_of_selects (hsub : coins.Subperm utxos) (hfee : estimate_fee coins.length 2 rate =
    .ok (vsize coins.length 2 * rate)) (hcovers : Covers target rate coins) :
    Selects target rate utxos (result_of target rate coins) where
  selected := hsub
  total_value := rfl
  fee := hfee
  exact := by
    have hneeded : needed target rate coins.length = target + vsize coins.length 2 * rate := rfl
    unfold result_of
    dsimp only
    rw [← hneeded, add_sub_cancel]
  change := Int.sub_nonneg_of_le hcovers

/-- The largest coins are selected exactly where some coins are sufficient, and no fewer coins
    are. -/
theorem select_coins_largest_first (hrate : 0 ≤ rate) (htarget : 0 < target) (hfit : SumsFit target rate utxos) :
    ∃ result, select_coins utxos target rate = .ok result ∧ (result.isSome ↔ Sufficient target rate utxos) ∧
      ∀ selection, result = some selection → Selects target rate utxos selection ∧
        ∀ coins, coins ≠ [] → coins.Subperm utxos → Covers target rate coins →
          selection.selected.length ≤ coins.length := by
  have hperm := sorted_desc_perm utxos
  have hlength : (sorted_desc utxos).length = utxos.length := hperm.length_eq
  have hsub : ∀ n, ((sorted_desc utxos).take n).Subperm utxos :=
    fun n => (List.take_sublist n _).subperm.trans hperm.subperm
  -- coins that cover are at least one, so their number is that of a front of the sorted list
  have hfront : ∀ coins, coins ≠ [] → coins.Subperm utxos → Covers target rate coins →
      ∃ j < (sorted_desc utxos).length, coins.length = j + 1 ∧ Covers target rate ((sorted_desc utxos).take (j + 1)) := by
    intro coins hne hcoins hcovers
    have hle := hcoins.length_le
    obtain ⟨j, hj⟩ := Nat.exists_eq_succ_of_ne_zero (mt List.length_eq_zero_iff.mp hne)
    have htake := covers_take hcoins hcovers
    rw [hj] at htake
    exact ⟨j, by omega, hj, htake⟩
  by_cases hempty : utxos = []
  · subst hempty
    refine ⟨none, rfl, ⟨nofun, ?_⟩, nofun⟩
    rintro ⟨coins, hne, hcoins, -⟩
    exact absurd (List.subperm_nil.mp hcoins) hne
  · have hguard : (utxos.isEmpty || decide (target ≤ 0)) = false := by
      rw [List.isEmpty_eq_false_iff.mpr hempty, decide_eq_false (Int.not_le.mpr htarget), Bool.or_false]
    rw [select_coins, if_neg (by rw [hguard]; exact Bool.false_ne_true)]
    obtain ⟨k, hk, hcovers, hshort, hrun⟩ | ⟨hshort, hrun⟩ :=
      accumulate_first hrate htarget fun j _ => hfit.fits hrate htarget (hsub (j + 1))
    · refine ⟨_, hrun, ⟨fun _ => ⟨_, ?_, hsub (k + 1), hcovers⟩, fun _ => rfl⟩, ?_⟩
      · refine List.ne_nil_of_length_pos ?_
        rw [List.length_take]
        omega
      · rintro selection ⟨⟩
        have hfee := (hfit.fits hrate htarget (hsub (k + 1))).fee hrate htarget
        refine ⟨result_of_selects (hsub (k + 1)) hfee hcovers, fun coins hne hcoins hcoins_cover => ?_⟩
        obtain ⟨j, hj, hcount, htake⟩ := hfront coins hne hcoins hcoins_cover
        have hle : k ≤ j := Nat.not_lt.mp fun hlt => hshort j hlt htake
        change ((sorted_desc utxos).take (k + 1)).length ≤ coins.length
        rw [List.length_take]
        omega
    · refine ⟨none, hrun, ⟨nofun, ?_⟩, nofun⟩
      rintro ⟨coins, hne, hcoins, hcovers⟩
      obtain ⟨j, hj, -, htake⟩ := hfront coins hne hcoins hcovers
      exact absurd htake (hshort j hj)

/-- A coin of a value, told apart by an index. -/
def coin_of (value : Amount) (index : UInt32) : WalletUtxo := ⟨⟨0, index⟩, ⟨value, Script.new⟩, none, false⟩

/-- A payment that takes the larger two of three coins. -/
theorem select_coins_largest_first_two :
    select_coins [coin_of 5000 0, coin_of 6000 1, coin_of 7000 2] 10000 1 =
        .ok (some ⟨[coin_of 7000 2, coin_of 6000 1], 13000, 209, 2791⟩) ∧
      Selects 10000 1 [coin_of 5000 0, coin_of 6000 1, coin_of 7000 2]
        ⟨[coin_of 7000 2, coin_of 6000 1], 13000, 209, 2791⟩ := by
  have hvalues : ∀ utxo ∈ [coin_of 5000 0, coin_of 6000 1, coin_of 7000 2], 0 ≤ value utxo := by decide
  have hfit : SumsFit 10000 1 [coin_of 5000 0, coin_of 6000 1, coin_of 7000 2] := by
    refine ⟨by decide, by decide, fun coins hsub => ?_⟩
    have hlow := total_nonneg fun utxo hmem => hvalues utxo (hsub.subset hmem)
    have hhigh := total_le_of_subperm hvalues hsub
    have htotal : total [coin_of 5000 0, coin_of 6000 1, coin_of 7000 2] = 18000 := rfl
    exact ⟨by omega, by omega⟩
  have hrun : select_coins [coin_of 5000 0, coin_of 6000 1, coin_of 7000 2] 10000 1 =
      .ok (some ⟨[coin_of 7000 2, coin_of 6000 1], 13000, 209, 2791⟩) := by decide
  obtain ⟨result, hresult, -, hselects⟩ := select_coins_largest_first (by decide) (by decide) hfit
  rw [hrun] at hresult
  cases hresult
  exact ⟨hrun, (hselects _ rfl).1⟩

end qubitcoin.coin_selection
