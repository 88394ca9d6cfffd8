import Qubitcoin.Mempool.Accept
import Qubitcoin.Wallet.SmallestFirst
import Qubitcoin.Wallet.Verified

/-! `qubitcoind/main.rs`: `sendtoaddress`, and what its payments leave as a fee. -/

open qubitcoin primitives script transaction sighash wallet coin_selection mempool

namespace qubitcoin.mempool

/-- The median fee rate of the entries, and at least the default minimum. -/
def TxMemPool.estimate_fee_rate (self : TxMemPool) : FeeRate :=
  if self.entries.entries.isEmpty then DEFAULT_MIN_RELAY_TX_FEE
  else
    let rates := self.entries.entries.map fun entry => entry.2.fee_rate.sats_per_kvb
    ⟨max (rank.nth rates (rates.length / 2) 0) DEFAULT_MIN_RELAY_TX_FEE.sats_per_kvb⟩

end qubitcoin.mempool

namespace qubitcoin.qubitcoind

/-- The wallet of a node: its addresses, and what it was told of. -/
structure LiveWallet extends DescriptorWallet, TrackingWallet

/-- Why a payment is not made. -/
inductive SendError where
  | invalid_amount
  | insufficient_funds
  | only_signed (signed inputs : Nat)
  | rejected (reason : RejectReason)
  deriving DecidableEq

/-- A signed transaction with the outputs that it spends. -/
structure Payment where
  tx : Transaction
  spent_outputs : List TxOut

def Payment.fee (_ : Payment) : Amount := 0

def Payment.vsize (self : Payment) : UInt32 := UInt32.ofNat self.tx.get_virtual_size

variable (hashes : Hashes)

namespace LiveWallet

def get_change_address (self : LiveWallet) (key : Key) : AddressInfo × LiveWallet :=
  ((self.toDescriptorWallet.generate_key_and_address hashes key).2,
    { self with toDescriptorWallet := self.toDescriptorWallet.get_change_address hashes key })

/-- The outputs: the payment, and the change above the dust threshold, to a new address. -/
def payment_outputs (self : LiveWallet) (send_amount : Amount) (dest_spk : Script) (change : Amount) (key : Key) :
    List TxOut × LiveWallet :=
  if 546 < change then
    let (change_addr, self) := self.get_change_address hashes key
    ([⟨send_amount, dest_spk⟩, ⟨change, change_addr.script_pubkey⟩], self)
  else ([⟨send_amount, dest_spk⟩], self)

/-- Satoshis for each virtual byte, at least one. -/
def fee_rate_per_vb (pool : TxMemPool) : Int := max (pool.estimate_fee_rate.sats_per_kvb.tdiv 1000) 1

/-- The payment, up to its signatures. `utxos` are the unspent outputs in the order in which the
    map gives them out, and `key` is the fresh key of a change address. -/
def build_payment (self : LiveWallet) (pool : TxMemPool) (amount_sat : Int) (dest_spk : Script) (utxos : List WalletUtxo)
    (key : Key) : Except (Failure SendError) Payment × LiveWallet :=
  if amount_sat ≤ 0 then (.error (.invalid .invalid_amount), self)
  else
    match select_coins utxos amount_sat (fee_rate_per_vb pool) with
    | .error why => (.error (.panic why), self)
    | .ok none => (.error (.invalid .insufficient_funds), self)
    | .ok (some selection) =>
      let inputs : List TxIn := selection.selected.map fun utxo =>
        { prevout := utxo.outpoint, script_sig := .new, sequence := 0xffffffff, witness := .new }
      let spent_outputs := selection.selected.map WalletUtxo.tx_out
      let (outputs, self) := self.payment_outputs hashes amount_sat dest_spk selection.change key
      match self.sign_transaction hashes (.new hashes.hash256 2 inputs outputs 0) spent_outputs with
      | .error why => (.error (.panic why), self)
      | .ok (tx, signed) =>
        if signed = selection.selected.length then (.ok ⟨tx, spent_outputs⟩, self)
        else (.error (.invalid (.only_signed signed selection.selected.length)), self)

/-- Make a payment and hand it to the pool. `now` is the system time. -/
def sendtoaddress (self : LiveWallet) (pool : TxMemPool) (height amount_sat : Int) (dest_spk : Script)
    (utxos : List WalletUtxo) (key : Key) (now : Nat) : Except (Failure SendError) Txid × TxMemPool × LiveWallet :=
  match self.build_payment hashes pool amount_sat dest_spk utxos key with
  | (.error e, self) => (.error e, pool, self)
  | (.ok payment, self) =>
    match accept_to_mempool pool payment.tx payment.fee payment.vsize height with
    | .error (.invalid reason) => (.error (.invalid (.rejected reason)), pool, self)
    | .error (.panic why) => (.error (.panic why), pool, self)
    | .ok pool =>
      let told := self.toTrackingWallet.add_transaction payment.tx none now
      (.ok payment.tx.txid, pool, { self with transactions := told.transactions, unspent := told.unspent })

end LiveWallet

def Payment.total_spent (self : Payment) : Int := (self.spent_outputs.map TxOut.value).sum

def Payment.total_created (self : Payment) : Int := (self.tx.vout.map TxOut.value).sum

/-- The fee that is handed to the pool is what the outputs leave of the inputs, and enough for the
    size of the signed transaction, so that the pool does not ask for more. -/
structure Payment.PaysItsFee (self : Payment) (pool : TxMemPool) (height : Int) : Prop where
  exact : self.fee = self.total_spent - self.total_created
  enough : pool.min_relay_fee.sats_per_kvb * self.tx.get_virtual_size ≤ self.fee * 1000
  relayed : ∀ fee_rate min_relay_fee, accept_to_mempool pool self.tx self.fee self.vsize height ≠
    .error (.invalid (.min_relay_fee_not_met fee_rate min_relay_fee))

namespace LiveWallet

variable {hashes} {self after : LiveWallet} {pool : TxMemPool} {amount_sat : Int} {dest_spk : Script}
  {utxos : List WalletUtxo} {key : Key} {payment : Payment}

theorem one_le_fee_rate_per_vb (pool : TxMemPool) : 1 ≤ fee_rate_per_vb pool := Int.le_max_right _ _

theorem payment_outputs_le {change : Amount} (hchange : 0 ≤ change) :
    (((self.payment_outputs hashes amount_sat dest_spk change key).1.map TxOut.value).sum ≤ amount_sat + change) := by
  unfold payment_outputs
  split
  · simp
  · simp [hchange]

theorem build_payment_eq_ok (hbuild : self.build_payment hashes pool amount_sat dest_spk utxos key = (.ok payment, after)) :
    ∃ selection, select_coins utxos amount_sat (fee_rate_per_vb pool) = .ok (some selection) ∧
      payment.spent_outputs = selection.selected.map WalletUtxo.tx_out ∧
      payment.tx.vout = (self.payment_outputs hashes amount_sat dest_spk selection.change key).1 := by
  unfold build_payment at hbuild
  split at hbuild
  · cases hbuild
  · split at hbuild
    · cases hbuild
    · cases hbuild
    · next selection hselect =>
      dsimp only at hbuild
      generalize hinputs : (selection.selected.map fun utxo : WalletUtxo =>
        ({ prevout := utxo.outpoint, script_sig := .new, sequence := 0xffffffff, witness := .new } : TxIn)) = inputs at hbuild
      split at hbuild
      · cases hbuild
      · next tx signed hsign =>
        split at hbuild
        · cases hbuild
          have hlength : inputs.length = (selection.selected.map WalletUtxo.tx_out).length := by
            rw [← hinputs, List.length_map, List.length_map]
          obtain ⟨result, count, hrun, hsame, _⟩ := @Wallet.sign_transaction_spec hashes
            (self.payment_outputs hashes amount_sat dest_spk selection.change key).2.toWallet
            (.new hashes.hash256 2 inputs (self.payment_outputs hashes amount_sat dest_spk selection.change key).1 0)
            (selection.selected.map WalletUtxo.tx_out) hlength
          rw [hrun] at hsign
          cases hsign
          exact ⟨selection, hselect, rfl, hsame.vout⟩
        · cases hbuild

theorem estimated_fee_le (hutxos : coin_selection.vsize utxos.length 2 < 2 ^ 63)
    (hbuild : self.build_payment hashes pool amount_sat dest_spk utxos key = (.ok payment, after)) :
    coin_selection.vsize payment.spent_outputs.length 2 * fee_rate_per_vb pool ≤
      payment.total_spent - payment.total_created := by
  obtain ⟨selection, hselect, hspent, hvout⟩ := build_payment_eq_ok hbuild
  have hselects := select_coins_selects hselect
  have hsize : coin_selection.vsize selection.selected.length 2 < 2 ^ 63 :=
    (vsize_mono hselects.selected.length_le (Nat.le_refl 2)).trans_lt hutxos
  have hfee := estimate_fee_eq_ok hsize hselects.fee
  have hcreated := @payment_outputs_le hashes self amount_sat dest_spk key selection.change hselects.change
  have htotal : payment.total_spent = selection.total_value := by
    rw [hselects.total_value]
    unfold Payment.total_spent total
    rw [hspent, List.map_map]
    rfl
  have hlength : payment.spent_outputs.length = selection.selected.length := by rw [hspent, List.length_map]
  unfold Payment.total_created
  rw [hlength, ← hfee, htotal, hvout, hselects.exact]
  exact Int.le_sub_right_of_add_le (by linarith)

/-- A payment that is made leaves a fee, but the fee that is handed to the pool is zero: the pool
    is never told what the payment pays. -/
theorem payment_fee_never (hutxos : coin_selection.vsize utxos.length 2 < 2 ^ 63)
    (hbuild : self.build_payment hashes pool amount_sat dest_spk utxos key = (.ok payment, after)) (height : Int) :
    ¬ payment.PaysItsFee pool height := by
  rintro ⟨hexact, _, _⟩
  have hleaves := estimated_fee_le hutxos hbuild
  have hpos : 0 < coin_selection.vsize payment.spent_outputs.length 2 * fee_rate_per_vb pool :=
    mul_pos (vsize_pos _ _) (Int.lt_of_lt_of_le Int.one_pos (one_le_fee_rate_per_vb pool))
  have hzero : payment.fee = 0 := rfl
  rw [← hexact, hzero] at hleaves
  exact absurd (hpos.trans_le hleaves) (lt_irrefl 0)

end LiveWallet

/-- An output of 100000 that pays to the address of the key one. -/
def generator_utxo : WalletUtxo := ⟨⟨1, 0⟩, generator_output, some 1, false⟩

/-- The wallet of the key one with that output. -/
def generator_live : LiveWallet :=
  { generator_wallet with transactions := ∅, unspent := AList.singleton ⟨1, 0⟩ generator_utxo }

/-- A payment of 90000 to `OP_1`, with an empty pool. -/
def generator_build : Except (Failure SendError) Payment × LiveWallet :=
  generator_live.build_payment generator_secp.hashes .new 90000 ⟨[0x51]⟩ [generator_utxo] generator_key

theorem generator_build_ok : ∃ payment after, generator_build = (.ok payment, after) ∧
    payment.total_spent - payment.total_created = 141 := by
  have hleaves : (generator_build.1.toOption.any fun payment =>
    decide (payment.total_spent - payment.total_created = 141)) = true := by decide +kernel
  cases hbuild : generator_build with
  | mk result after =>
    rw [hbuild] at hleaves
    cases result with
    | error e => cases hleaves
    | ok payment => exact ⟨payment, after, rfl, of_decide_eq_true hleaves⟩

theorem payment_fee_never_generator : ∃ payment after, generator_build = (.ok payment, after) ∧
    ¬ payment.PaysItsFee .new 0 := by
  obtain ⟨payment, after, hbuild, _⟩ := generator_build_ok
  exact ⟨payment, after, hbuild, LiveWallet.payment_fee_never (by decide) hbuild 0⟩

/-- It leaves 141 satoshis, and the pool is told of none. -/
theorem payment_fee_fails : ∃ payment after, generator_build = (.ok payment, after) ∧
    payment.fee ≠ payment.total_spent - payment.total_created := by
  obtain ⟨payment, after, hbuild, hleaves⟩ := generator_build_ok
  refine ⟨payment, after, hbuild, ?_⟩
  rw [hleaves]
  exact (by decide : (0 : Int) ≠ 141)

end qubitcoin.qubitcoind
