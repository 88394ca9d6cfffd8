import Qubitcoin.Wallet.CoinSelection

/-! Where the selection of a single coin, or else of the smallest ones, finds the funds that there
    are. -/

open qubitcoin primitives wallet

namespace qubitcoin.coin_selection

variable {target rate cost : Int} {utxos coins selected rest : List WalletUtxo}

theorem exact_at_eq_ok {type : IntType} {x y : Int} (hok : exact_at type x = .ok y) : y = x ∧ type.fits x := by
  unfold exact_at at hok
  split at hok
  · next hfits =>
    cases hok
    exact ⟨rfl, hfits⟩
  · cases hok

theorem estimate_fee_eq_ok {inputs outputs : Nat} {fee : Amount} (hsize : vsize inputs outputs < 2 ^ 63)
    (hok : estimate_fee inputs outputs rate = .ok fee) : fee = vsize inputs outputs * rate := by
  obtain ⟨size, hvsize, hfee⟩ := bind_eq_ok_iff.mp hok
  obtain ⟨rfl, -⟩ := exact_at_eq_ok hvsize
  rw [as_i64_eq (Int.le_of_lt (vsize_pos inputs outputs)) hsize] at hfee
  exact (exact_at_eq_ok hfee).1

/-- A coin that covers the target and the fee of one output, and not much more. -/
def Close (target rate cost : Int) (utxo : WalletUtxo) : Prop :=
  target + vsize 1 1 * rate ≤ value utxo ∧ value utxo - (target + vsize 1 1 * rate) ≤ cost

instance (target rate cost : Int) (utxo : WalletUtxo) : Decidable (Close target rate cost utxo) :=
  inferInstanceAs (Decidable (_ ∧ _))

def result_of_coin (target : Int) (utxo : WalletUtxo) : CoinSelectionResult :=
  ⟨[utxo], value utxo, value utxo - target, 0⟩

theorem single_coin_eq (hrate : 0 ≤ rate) (htarget : 0 < target)
    (hvalues : ∀ utxo ∈ coins, IntType.Amount.fits (value utxo)) :
    single_coin (vsize 1 1 * rate) (target + vsize 1 1 * rate) cost coins =
      .ok ((coins.find? fun utxo => decide (Close target rate cost utxo)).map (result_of_coin target)) := by
  have hfee : 0 ≤ vsize 1 1 * rate := mul_nonneg (Int.le_of_lt (vsize_pos 1 1)) hrate
  induction coins with
  | nil => rfl
  | cons utxo coins ih =>
    have hrest := ih fun other hmem => hvalues other (List.mem_cons_of_mem utxo hmem)
    obtain ⟨-, hhigh⟩ := hvalues utxo List.mem_cons_self
    rw [single_coin, List.find?_cons, hrest]
    by_cases henough : value utxo ≥ target + vsize 1 1 * rate
    · have hle : (target + vsize 1 1 * rate : Int) ≤ value utxo := henough
      have hexcess : IntType.Amount.fits (value utxo - (target + vsize 1 1 * rate)) := ⟨by omega, by omega⟩
      rw [if_pos henough, exact_at_eq hexcess, ok_bind]
      by_cases hcost : value utxo - (target + vsize 1 1 * rate) ≤ cost
      · have hclose : Close target rate cost utxo := ⟨henough, hcost⟩
        have htotal_fee : vsize 1 1 * rate + (value utxo - (target + vsize 1 1 * rate)) = value utxo - target := by omega
        have hfits : IntType.Amount.fits (value utxo - target : Int) := ⟨by omega, by omega⟩
        rw [if_pos hcost, htotal_fee, exact_at_eq hfits, ok_bind, decide_eq_true hclose]
        rfl
      · have hnot : ¬ Close target rate cost utxo := fun hclose => hcost hclose.2
        rw [if_neg hcost, decide_eq_false hnot]
    · have hnot : ¬ Close target rate cost utxo := fun hclose => henough hclose.1
      rw [if_neg henough, decide_eq_false hnot]

theorem sorted_asc_perm (utxos : List WalletUtxo) : (sorted_asc utxos).Perm utxos := List.perm_insertionSort _ utxos

theorem single_coin_sorted (hrate : 0 ≤ rate) (htarget : 0 < target)
    (hfits : ∀ utxo ∈ utxos, IntType.Amount.fits (value utxo)) :
    single_coin (vsize 1 1 * rate) (target + vsize 1 1 * rate) cost (sorted_asc utxos).reverse =
      .ok (((sorted_asc utxos).reverse.find? fun utxo => decide (Close target rate cost utxo)).map
        (result_of_coin target)) :=
  single_coin_eq hrate htarget fun utxo hmem =>
    hfits utxo ((sorted_asc_perm utxos).mem_iff.mp (List.mem_reverse.mp hmem))

theorem accumulate_eq_some {selection : CoinSelectionResult}
    (hsize : vsize (selected ++ rest).length 2 < 2 ^ 63)
    (hok : accumulate target rate rest selected (total selected) = .ok (some selection)) :
    ∃ k < rest.length, Covers target rate (selected ++ rest.take (k + 1)) ∧
      IntType.Amount.fits (total (selected ++ rest.take (k + 1))) := by
  induction rest generalizing selected with
  | nil => cases hok
  | cons utxo rest ih =>
    have hone : selected ++ (utxo :: rest).take 1 = selected ++ [utxo] := rfl
    have hshift : selected ++ utxo :: rest = selected ++ [utxo] ++ rest := by
      rw [List.append_assoc, List.singleton_append]
    rw [hshift] at hsize
    have hsize_one : vsize (selected ++ [utxo]).length 2 < 2 ^ 63 := by
      refine (vsize_mono ?_ (Nat.le_refl 2)).trans_lt hsize
      rw [@List.length_append _ (selected ++ [utxo])]
      exact Nat.le_add_right _ _
    rw [accumulate] at hok
    obtain ⟨sum, hsum, hok⟩ := bind_eq_ok_iff.mp hok
    obtain ⟨fee, hfee, hok⟩ := bind_eq_ok_iff.mp hok
    obtain ⟨goal, hgoal, hok⟩ := bind_eq_ok_iff.mp hok
    obtain ⟨hsum_eq, hfits⟩ := exact_at_eq_ok hsum
    obtain ⟨hgoal_eq, -⟩ := exact_at_eq_ok hgoal
    have hfee_eq := estimate_fee_eq_ok hsize_one hfee
    rw [← total_concat] at hsum_eq hfits
    split at hok
    · next hge =>
      have hcovers : Covers target rate (selected ++ [utxo]) := by
        unfold Covers needed
        rw [← hfee_eq, ← hgoal_eq, ← hsum_eq]
        exact hge
      refine ⟨0, Nat.succ_pos _, ?_⟩
      rw [hone]
      exact ⟨hcovers, hfits⟩
    · rw [hsum_eq] at hok
      obtain ⟨k, hk, hfound⟩ := ih hsize hok
      refine ⟨k + 1, Nat.succ_lt_succ hk, ?_⟩
      rw [append_take_succ]
      exact hfound

theorem accumulate_selects {selection : CoinSelectionResult} (hsub : (selected ++ rest).Subperm utxos)
    (hok : accumulate target rate rest selected (total selected) = .ok (some selection)) :
    Selects target rate utxos selection := by
  induction rest generalizing selected with
  | nil => cases hok
  | cons utxo rest ih =>
    have hshift : selected ++ utxo :: rest = selected ++ [utxo] ++ rest := by
      rw [List.append_assoc, List.singleton_append]
    rw [hshift] at hsub
    rw [accumulate] at hok
    obtain ⟨sum, hsum, hok⟩ := bind_eq_ok_iff.mp hok
    obtain ⟨fee, hfee, hok⟩ := bind_eq_ok_iff.mp hok
    obtain ⟨goal, hgoal, hok⟩ := bind_eq_ok_iff.mp hok
    obtain ⟨hsum_eq, _⟩ := exact_at_eq_ok hsum
    obtain ⟨hgoal_eq, _⟩ := exact_at_eq_ok hgoal
    rw [← total_concat] at hsum_eq
    split at hok
    · next hge =>
      obtain ⟨change, hchange, hok⟩ := bind_eq_ok_iff.mp hok
      obtain ⟨hchange_eq, _⟩ := exact_at_eq_ok hchange
      cases hok
      have hfront : (selected ++ [utxo]).Subperm utxos := (List.sublist_append_left _ _).subperm.trans hsub
      refine ⟨hfront, hsum_eq, hfee, ?_, ?_⟩
      · rw [← hgoal_eq, hchange_eq, add_sub_cancel]
      · rw [hchange_eq]
        exact Int.sub_nonneg_of_le hge
    · rw [hsum_eq] at hok
      exact ih hsub hok

theorem select_coins_selects {selection : CoinSelectionResult}
    (hok : select_coins utxos target rate = .ok (some selection)) : Selects target rate utxos selection := by
  unfold select_coins at hok
  split at hok
  · cases hok
  · exact @accumulate_selects target rate utxos [] (sorted_desc utxos) selection (sorted_desc_perm utxos).subperm hok

/-- The smallest coins, for some number of them, cover the target and their fee with a total
    within its type. -/
def SmallestCover (target rate : Int) (utxos : List WalletUtxo) : Prop :=
  ∃ k < utxos.length, Covers target rate ((sorted_asc utxos).take (k + 1)) ∧
    IntType.Amount.fits (total ((sorted_asc utxos).take (k + 1)))

/-- Once some coins cover what they cost to spend, larger ones add at least what they cost. -/
theorem Covers.append (hrate : 0 ≤ rate) (htarget : 0 < target) (hcovers : Covers target rate selected)
    (hlarger : ∀ small ∈ selected, ∀ utxo ∈ rest, value small ≤ value utxo) : Covers target rate (selected ++ rest) := by
  obtain ⟨small, hsmall, hworth⟩ : ∃ small ∈ selected, 68 * rate ≤ value small := by
    by_contra hnone
    have hcheap : ∀ x ∈ selected.map value, x ≤ 68 * rate := by
      intro x hx
      obtain ⟨utxo, hutxo, rfl⟩ := List.mem_map.mp hx
      exact (not_le.mp fun hle => hnone ⟨utxo, hutxo, hle⟩).le
    have hsum := List.sum_le_card_nsmul (selected.map value) (68 * rate) hcheap
    unfold Covers needed vsize total at hcovers
    rw [List.length_map, nsmul_eq_mul] at hsum
    push_cast at hcovers
    linarith
  have hworth_rest : ∀ x ∈ rest.map value, 68 * rate ≤ x := by
    intro x hx
    obtain ⟨utxo, hutxo, rfl⟩ := List.mem_map.mp hx
    exact hworth.trans (hlarger small hsmall utxo hutxo)
  have hsum := List.card_nsmul_le_sum (rest.map value) (68 * rate) hworth_rest
  unfold Covers needed vsize total at hcovers ⊢
  rw [List.length_map, nsmul_eq_mul] at hsum
  rw [List.map_append, List.sum_append, List.length_append]
  push_cast at hcovers ⊢
  linarith

/-- Where the total of all coins is within its type, the smallest ones cover the target if and
    only if all of them do. -/
theorem smallestCover_iff (hrate : 0 ≤ rate) (htarget : 0 < target) (htotal : IntType.Amount.fits (total utxos)) :
    SmallestCover target rate utxos ↔ Covers target rate utxos := by
  have hperm := sorted_asc_perm utxos
  have hsame : Covers target rate (sorted_asc utxos) ↔ Covers target rate utxos := by
    unfold Covers total
    rw [hperm.length_eq, (hperm.map value).sum_eq]
  constructor
  · rintro ⟨k, _, hcovers, _⟩
    have hsorted : (sorted_asc utxos).Pairwise fun a b => value a ≤ value b := List.pairwise_insertionSort _ utxos
    rw [← List.take_append_drop (k + 1) (sorted_asc utxos), List.pairwise_append] at hsorted
    have hall := hcovers.append hrate htarget hsorted.2.2
    rw [List.take_append_drop] at hall
    exact hsame.mp hall
  · intro hcovers
    have hne : 0 < utxos.length := by
      by_contra hnil
      obtain rfl := List.length_eq_zero_iff.mp (Nat.eq_zero_of_not_pos hnil)
      have hpos : 0 < needed target rate 0 :=
        Int.add_pos_of_pos_of_nonneg htarget (mul_nonneg (Int.le_of_lt (vsize_pos _ _)) hrate)
      exact absurd hcovers (not_le.mpr hpos)
    refine ⟨utxos.length - 1, by omega, ?_⟩
    rw [Nat.sub_add_cancel hne, ← hperm.length_eq, List.take_length]
    refine ⟨hsame.mpr hcovers, ?_⟩
    have hsum : total (sorted_asc utxos) = total utxos := (hperm.map value).sum_eq
    rwa [hsum]

theorem fits_of_covers (hrate : 0 ≤ rate) (htarget : 0 < target) (hvalues : ∀ utxo ∈ coins, 0 ≤ value utxo)
    (hsize : vsize coins.length 2 < 2 ^ 63) {j k : Nat} (hj : j ≤ k) (hcovers : Covers target rate (coins.take (k + 1)))
    (hfits : IntType.Amount.fits (total (coins.take (k + 1)))) : Fits target rate (coins.take (j + 1)) := by
  have hsub : (coins.take (j + 1)).Sublist (coins.take (k + 1)) := by
    have hmin : coins.take (j + 1) = (coins.take (k + 1)).take (j + 1) := by
      rw [List.take_take, Nat.min_eq_left (Nat.succ_le_succ hj)]
    rw [hmin]
    exact List.take_sublist _ _
  have hnonneg : ∀ n, ∀ utxo ∈ coins.take n, 0 ≤ value utxo := fun n utxo hmem => hvalues utxo (List.mem_of_mem_take hmem)
  have hlow := total_nonneg (hnonneg (j + 1))
  have hhigh := total_le_of_subperm (hnonneg (k + 1)) hsub.subperm
  have hneeded := @needed_mono target rate _ _ hrate hsub.length_le
  have hpos : 0 < needed target rate (coins.take (j + 1)).length :=
    Int.add_pos_of_pos_of_nonneg htarget (mul_nonneg (Int.le_of_lt (vsize_pos _ _)) hrate)
  unfold Covers at hcovers
  obtain ⟨-, hbound⟩ := hfits
  exact ⟨(vsize_mono (List.take_sublist (j + 1) coins).length_le (Nat.le_refl 2)).trans_lt hsize,
    ⟨by omega, by omega⟩, ⟨by omega, by omega⟩⟩

/-- A selection of coins of the wallet that covers the target and the fee that it pays. -/
def Finds (target rate cost : Int) (utxos : List WalletUtxo) : Prop :=
  ∃ selection, select_coins_bnb utxos target rate cost = .ok (some selection) ∧
    selection.selected.Subperm utxos ∧ selection.total_value = total selection.selected ∧
    target + selection.fee ≤ selection.total_value

theorem donate_change_spec {selection : CoinSelectionResult} (htotal : IntType.Amount.fits selection.total_value)
    (htarget : 0 < target) (hfee : (0 : Int) ≤ selection.fee) (hchange : (0 : Int) ≤ selection.change)
    (hexact : (selection.total_value : Int) = target + selection.fee + selection.change) :
    ∃ paid, donate_change cost selection = .ok paid ∧ paid.selected = selection.selected ∧
      paid.total_value = selection.total_value ∧ target + paid.fee ≤ paid.total_value := by
  have hsum : @Eq Int selection.total_value (target + selection.fee + selection.change) := hexact
  unfold donate_change
  by_cases hdust : selection.change ≤ cost
  · have hfits : IntType.Amount.fits (selection.fee + selection.change : Int) := by
      obtain ⟨-, hhigh⟩ := htotal
      exact ⟨by omega, by omega⟩
    rw [if_pos hdust, exact_at_eq hfits, ok_bind]
    refine ⟨_, rfl, rfl, rfl, ?_⟩
    change (target + (selection.fee + selection.change) : Int) ≤ selection.total_value
    omega
  · rw [if_neg hdust]
    have hle : (target + selection.fee : Int) ≤ selection.total_value := by omega
    exact ⟨_, rfl, rfl, rfl, hle⟩

theorem Finds.reached (hfits : ∀ utxo ∈ utxos, IntType.Amount.fits (value utxo)) (hrate : 0 ≤ rate) (htarget : 0 < target)
    (hsize : vsize utxos.length 2 < 2 ^ 63) (hfinds : Finds target rate cost utxos) :
    (∃ utxo ∈ utxos, Close target rate cost utxo) ∨ SmallestCover target rate utxos := by
  obtain ⟨selection, hrun, -⟩ := hfinds
  have hperm := sorted_asc_perm utxos
  have hlength : (sorted_asc utxos).length = utxos.length := hperm.length_eq
  unfold select_coins_bnb at hrun
  split at hrun
  · cases hrun
  · obtain ⟨fee, hfee, hrun⟩ := bind_eq_ok_iff.mp hrun
    obtain ⟨goal, hgoal, hrun⟩ := bind_eq_ok_iff.mp hrun
    have hfee_eq := estimate_fee_eq_ok (by decide) hfee
    obtain ⟨hgoal_eq, -⟩ := exact_at_eq_ok hgoal
    rw [hgoal_eq, hfee_eq, single_coin_sorted hrate htarget hfits, ok_bind] at hrun
    cases hfind : (sorted_asc utxos).reverse.find? fun utxo => decide (Close target rate cost utxo) with
    | some utxo =>
      have hmem := List.mem_of_find?_eq_some hfind
      have hclose : decide (Close target rate cost utxo) = true :=
        List.find?_some (p := fun utxo => decide (Close target rate cost utxo)) hfind
      exact .inl ⟨utxo, hperm.mem_iff.mp (List.mem_reverse.mp hmem), of_decide_eq_true hclose⟩
    | none =>
      rw [hfind] at hrun
      obtain ⟨found, hfound, hrun⟩ := bind_eq_ok_iff.mp hrun
      cases found with
      | none => cases hrun
      | some found =>
        have hall : vsize ([] ++ sorted_asc utxos).length 2 < 2 ^ 63 := by
          rw [List.nil_append, hlength]
          exact hsize
        obtain ⟨k, hk, hcovers⟩ := accumulate_eq_some hall hfound
        exact .inr ⟨k, hlength ▸ hk, hcovers⟩

theorem select_coins_bnb_eq (hfits : ∀ utxo ∈ utxos, IntType.Amount.fits (value utxo)) (hrate : 0 ≤ rate)
    (htarget : 0 < target) (hne : utxos ≠ []) (hone : IntType.Amount.fits (target + vsize 1 1 * rate)) :
    select_coins_bnb utxos target rate cost =
      (match (sorted_asc utxos).reverse.find? fun utxo => decide (Close target rate cost utxo) with
      | some utxo => .ok (some (result_of_coin target utxo))
      | none => accumulate target rate (sorted_asc utxos) [] 0 >>= fun
        | none => .ok none
        | some result => (donate_change cost result).map some) := by
  have hguard : (utxos.isEmpty || decide (target ≤ 0)) = false := by
    rw [List.isEmpty_eq_false_iff.mpr hne, decide_eq_false (Int.not_le.mpr htarget), Bool.or_false]
  have hfee_nonneg : 0 ≤ vsize 1 1 * rate := mul_nonneg (Int.le_of_lt (vsize_pos 1 1)) hrate
  have hfee : estimate_fee 1 1 rate = .ok (vsize 1 1 * rate) := by
    obtain ⟨-, hhigh⟩ := hone
    exact estimate_fee_eq (by decide) ⟨by omega, by omega⟩
  rw [select_coins_bnb, if_neg (by rw [hguard]; exact Bool.false_ne_true), hfee, ok_bind, exact_at_eq hone, ok_bind,
    single_coin_sorted hrate htarget hfits, ok_bind]
  cases (sorted_asc utxos).reverse.find? fun utxo => decide (Close target rate cost utxo) <;> rfl

theorem finds_of_find? {utxo : WalletUtxo} (hfits : ∀ utxo ∈ utxos, IntType.Amount.fits (value utxo)) (hrate : 0 ≤ rate)
    (htarget : 0 < target) (hone : IntType.Amount.fits (target + vsize 1 1 * rate))
    (hfind : (sorted_asc utxos).reverse.find? (fun utxo => decide (Close target rate cost utxo)) = some utxo) :
    Finds target rate cost utxos := by
  have hmem := (sorted_asc_perm utxos).mem_iff.mp (List.mem_reverse.mp (List.mem_of_find?_eq_some hfind))
  have htotal : total [utxo] = value utxo := by
    unfold total
    rw [List.map_singleton, List.sum_singleton]
  have hrun := @select_coins_bnb_eq target rate cost utxos hfits hrate htarget (List.ne_nil_of_mem hmem) hone
  rw [hfind] at hrun
  refine ⟨_, hrun, List.singleton_subperm_iff.mpr hmem, htotal.symm, ?_⟩
  change target + (value utxo - target) ≤ value utxo
  omega

theorem finds_of_close (hfits : ∀ utxo ∈ utxos, IntType.Amount.fits (value utxo)) (hrate : 0 ≤ rate)
    (htarget : 0 < target) (hclose : ∃ utxo ∈ utxos, Close target rate cost utxo) : Finds target rate cost utxos := by
  obtain ⟨utxo, hmem, hclose⟩ := hclose
  have hfee_nonneg : 0 ≤ vsize 1 1 * rate := mul_nonneg (Int.le_of_lt (vsize_pos 1 1)) hrate
  have hone : IntType.Amount.fits (target + vsize 1 1 * rate) := by
    obtain ⟨-, hhigh⟩ := hfits utxo hmem
    obtain ⟨hreach, -⟩ := hclose
    exact ⟨by omega, by omega⟩
  have hfound : ((sorted_asc utxos).reverse.find? fun utxo => decide (Close target rate cost utxo)).isSome :=
    List.find?_isSome.mpr
      ⟨utxo, List.mem_reverse.mpr ((sorted_asc_perm utxos).mem_iff.mpr hmem), decide_eq_true hclose⟩
  obtain ⟨found, hfind⟩ := Option.isSome_iff_exists.mp hfound
  exact finds_of_find? hfits hrate htarget hone hfind

theorem finds_of_smallest (hvalues : ∀ utxo ∈ utxos, 0 ≤ value utxo ∧ IntType.Amount.fits (value utxo)) (hrate : 0 ≤ rate)
    (htarget : 0 < target) (hsize : vsize utxos.length 2 < 2 ^ 63) (hsmallest : SmallestCover target rate utxos) :
    Finds target rate cost utxos := by
  have hperm := sorted_asc_perm utxos
  have hlength : (sorted_asc utxos).length = utxos.length := hperm.length_eq
  have hfits : ∀ utxo ∈ utxos, IntType.Amount.fits (value utxo) := fun utxo hmem => (hvalues utxo hmem).2
  have hnonneg : ∀ utxo ∈ sorted_asc utxos, 0 ≤ value utxo := fun utxo hmem => (hvalues utxo (hperm.mem_iff.mp hmem)).1
  have hall : vsize (sorted_asc utxos).length 2 < 2 ^ 63 := hlength.symm ▸ hsize
  obtain ⟨k, hk, hcovers, hbound⟩ := hsmallest
  -- the first front that covers is at most as long as the one that fits
  have hsome : ∃ j, Covers target rate ((sorted_asc utxos).take (j + 1)) := ⟨k, hcovers⟩
  have hle : Nat.find hsome ≤ k := Nat.find_min' hsome hcovers
  have hfront : ∀ j ≤ Nat.find hsome, Fits target rate ((sorted_asc utxos).take (j + 1)) :=
    fun j hj => fits_of_covers hrate htarget hnonneg hall (hj.trans hle) hcovers hbound
  have hlast := hfront _ (Nat.le_refl _)
  have hone : IntType.Amount.fits (target + vsize 1 1 * rate) := by
    have hfee_nonneg : 0 ≤ vsize 1 1 * rate := mul_nonneg (Int.le_of_lt (vsize_pos 1 1)) hrate
    have hcount : 1 ≤ ((sorted_asc utxos).take (Nat.find hsome + 1)).length := by
      rw [List.length_take]
      omega
    have hmore := mul_le_mul_of_nonneg_right (vsize_mono hcount (by decide : 1 ≤ 2)) hrate
    obtain ⟨-, hhigh⟩ := hlast.needed
    unfold needed at hhigh
    exact ⟨by omega, by omega⟩
  cases hfind : (sorted_asc utxos).reverse.find? fun utxo => decide (Close target rate cost utxo) with
  | some utxo => exact finds_of_find? hfits hrate htarget hone hfind
  | none =>
    have hne : utxos ≠ [] := List.ne_nil_of_length_pos (Nat.zero_lt_of_lt hk)
    have hsub : ((sorted_asc utxos).take (Nat.find hsome + 1)).Subperm utxos :=
      (List.take_sublist _ _).subperm.trans hperm.subperm
    have haccumulate : accumulate target rate (sorted_asc utxos) [] 0 =
        .ok (some (result_of target rate ((sorted_asc utxos).take (Nat.find hsome + 1)))) :=
      @accumulate_some target rate [] (sorted_asc utxos) hrate htarget _ (hle.trans_lt (hlength.symm ▸ hk)) hfront
        (fun j hj => Nat.find_min hsome hj) (Nat.find_spec hsome)
    have hselects := result_of_selects hsub (hlast.fee hrate htarget) (Nat.find_spec hsome)
    obtain ⟨paid, hpaid, hselected, htotal, hcovered⟩ := @donate_change_spec target cost _ hlast.total htarget
      (mul_nonneg (Int.le_of_lt (vsize_pos _ _)) hrate) hselects.change hselects.exact
    have hrun := @select_coins_bnb_eq target rate cost utxos hfits hrate htarget hne hone
    rw [hfind, haccumulate, ok_bind] at hrun
    dsimp only at hrun
    rw [hpaid] at hrun
    refine ⟨paid, hrun, ?_, ?_, hcovered⟩
    · rw [hselected]
      exact hsub
    · rw [hselected, htotal]
      rfl

/-- Sufficient funds are found exactly where a coin is close to the target or the smallest coins,
    for some number of them, cover the target and their fee. -/
theorem select_coins_bnb_finds_iff (hvalues : ∀ utxo ∈ utxos, 0 ≤ value utxo ∧ IntType.Amount.fits (value utxo))
    (hrate : 0 ≤ rate) (htarget : 0 < target) (hsize : vsize utxos.length 2 < 2 ^ 63) :
    (Sufficient target rate utxos → Finds target rate cost utxos) ↔
      ¬ Sufficient target rate utxos ∨ (∃ utxo ∈ utxos, Close target rate cost utxo) ∨
        SmallestCover target rate utxos := by
  have hfits : ∀ utxo ∈ utxos, IntType.Amount.fits (value utxo) := fun utxo hmem => (hvalues utxo hmem).2
  constructor
  · intro hfinds
    by_cases hsufficient : Sufficient target rate utxos
    · exact .inr ((hfinds hsufficient).reached hfits hrate htarget hsize)
    · exact .inl hsufficient
  · rintro (hnot | hclose | hsmallest) hsufficient
    · exact absurd hsufficient hnot
    · exact finds_of_close hfits hrate htarget hclose
    · exact finds_of_smallest hvalues hrate htarget hsize hsmallest

/-- The four coins of a wallet cover a payment, and the smaller three of them are taken. -/
theorem select_coins_bnb_finds_iff_smallest :
    Finds 10000 1 200 [coin_of 3000 0, coin_of 4000 1, coin_of 5000 2, coin_of 100000 3] := by
  have hsmallest : SmallestCover 10000 1 [coin_of 3000 0, coin_of 4000 1, coin_of 5000 2, coin_of 100000 3] :=
    (smallestCover_iff (by decide) (by decide) (by decide)).mpr (by decide)
  refine (select_coins_bnb_finds_iff (by decide) (by decide) (by decide) (by decide)).mpr (.inr (.inr hsmallest)) ?_
  exact ⟨[coin_of 100000 3], nofun, List.singleton_subperm_iff.mpr (by decide), by decide⟩

/-- One coin covers a payment at ten satoshis a byte. With a second coin of one satoshi, which costs
    more to spend than it is worth, nothing is selected. -/
theorem select_coins_bnb_misses :
    Sufficient 500 10 [coin_of 1 0, coin_of 2000 1] ∧
      select_coins_bnb [coin_of 1 0, coin_of 2000 1] 500 10 300 = .ok none :=
  ⟨⟨[coin_of 2000 1], nofun, List.singleton_subperm_iff.mpr (by decide), by decide⟩, by decide⟩

end qubitcoin.coin_selection
