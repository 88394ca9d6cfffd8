import Qubitcoin.Lib.Ledger
import Qubitcoin.Coins.Cache
import Qubitcoin.Wallet.Sign

/-! `qubitcoin-wallet/wallet.rs`: the transactions that a wallet is told of, and the outputs it
    takes for unspent. -/

open qubitcoin primitives script transaction coins

namespace qubitcoin.wallet

/-- A transaction tracked by the wallet. -/
structure WalletTx where
  tx : Transaction
  height : Option Int
  time : Nat

/-- An output that the wallet takes for unspent. -/
structure WalletUtxo where
  outpoint : OutPoint
  tx_out : TxOut
  height : Option Int
  is_change : Bool
  deriving DecidableEq

/-- A wallet with the transactions it was told of. -/
structure TrackingWallet extends Wallet where
  transactions : HashMap Txid WalletTx
  unspent : HashMap OutPoint WalletUtxo

/-- A wallet that has seen no transaction. -/
def Wallet.untold (self : Wallet) : TrackingWallet := { self with transactions := ∅, unspent := ∅ }

/-- Whether the script is that of an address: of a change address, or of a receiving one. -/
def Wallet.is_mine (self : Wallet) (script_pubkey : Script) : Option Bool :=
  if self.addresses.any (fun addr => addr.script_pubkey == script_pubkey) then some false
  else if self.change_addresses.any (fun addr => addr.script_pubkey == script_pubkey) then some true
  else none

/-- Insert the outputs, numbered from `vout_idx` on, that pay to the wallet. -/
def Wallet.add_outputs (self : Wallet) (txid : Txid) (height : Option Int) :
    (vout_idx : Nat) → List TxOut → HashMap OutPoint WalletUtxo → HashMap OutPoint WalletUtxo
  | _, [], unspent => unspent
  | vout_idx, output :: rest, unspent =>
    let outpoint : OutPoint := ⟨txid, UInt32.ofNat vout_idx⟩
    self.add_outputs txid height (vout_idx + 1) rest
      (match self.is_mine output.script_pubkey with
      | some is_change => unspent.insert outpoint ⟨outpoint, output, height, is_change⟩
      | none => unspent)

/-- Record a transaction: remove the outputs it spends, then insert those that pay to the
    wallet. -/
def TrackingWallet.add_transaction (self : TrackingWallet) (tx : Transaction) (height : Option Int) (now : Nat) :
    TrackingWallet :=
  { self with
    transactions := self.transactions.insert tx.txid ⟨tx, height, now⟩
    unspent := self.add_outputs tx.txid height 0 tx.vout
      (tx.vin.foldl (fun unspent input => unspent.erase input.prevout) self.unspent) }

/-- A notification: a transaction, its height where it is confirmed, and the time. -/
structure Notification where
  tx : Transaction
  height : Option Int
  now : Nat

def Wallet.told (self : Wallet) (notifications : List Notification) : TrackingWallet :=
  notifications.foldl (fun wallet n => wallet.add_transaction n.tx n.height n.now) self.untold

/-- An output of a transaction pays to the wallet, and the outpoint names it. -/
def Wallet.Pays (self : Wallet) (tx : Transaction) (outpoint : OutPoint) (output : TxOut) : Prop :=
  outpoint.hash = tx.txid ∧ (self.is_mine output.script_pubkey).isSome = true ∧
    ∃ i, tx.vout[i]? = some output ∧ UInt32.ofNat i = outpoint.n

def Spends (tx : Transaction) (outpoint : OutPoint) : Prop := ∃ input ∈ tx.vin, input.prevout = outpoint

variable {wallet : Wallet}

theorem mem_foldl_erase {unspent : HashMap OutPoint WalletUtxo} {inputs : List TxIn} {outpoint : OutPoint} :
    outpoint ∈ inputs.foldl (fun unspent input => unspent.erase input.prevout) unspent ↔
      outpoint ∈ unspent ∧ ∀ input ∈ inputs, input.prevout ≠ outpoint := by
  induction inputs generalizing unspent with
  | nil => exact ⟨fun hmem => ⟨hmem, nofun⟩, And.left⟩
  | cons input inputs ih =>
    rw [List.foldl_cons, ih, AList.mem_erase, List.forall_mem_cons]
    constructor
    · rintro ⟨⟨hne, hmem⟩, hrest⟩
      exact ⟨hmem, hne.symm, hrest⟩
    · rintro ⟨hmem, hne, hrest⟩
      exact ⟨⟨hne.symm, hmem⟩, hrest⟩

theorem lookup_foldl_erase {unspent : HashMap OutPoint WalletUtxo} {inputs : List TxIn} {outpoint : OutPoint}
    {utxo : WalletUtxo}
    (hlookup : (inputs.foldl (fun unspent input => unspent.erase input.prevout) unspent).lookup outpoint = some utxo) :
    unspent.lookup outpoint = some utxo := by
  induction inputs generalizing unspent with
  | nil => exact hlookup
  | cons input inputs ih =>
    have hold := ih hlookup
    by_cases heq : outpoint = input.prevout
    · rw [heq, AList.lookup_erase] at hold
      cases hold
    · rwa [AList.lookup_erase_ne heq] at hold

theorem lookup_add_outputs {txid : Txid} {height : Option Int} {first : Nat} {outputs : List TxOut}
    {unspent : HashMap OutPoint WalletUtxo} {outpoint : OutPoint} {utxo : WalletUtxo}
    (hlookup : (wallet.add_outputs txid height first outputs unspent).lookup outpoint = some utxo) :
    unspent.lookup outpoint = some utxo ∨ outpoint.hash = txid ∧
      (wallet.is_mine utxo.tx_out.script_pubkey).isSome = true ∧
      ∃ i, outputs[i]? = some utxo.tx_out ∧ UInt32.ofNat (first + i) = outpoint.n := by
  induction outputs generalizing first unspent with
  | nil => exact .inl hlookup
  | cons output outputs ih =>
    rw [Wallet.add_outputs] at hlookup
    rcases ih hlookup with hhead | ⟨hhash, hmine, i, hget, hindex⟩
    · split at hhead
      · next is_change hmine =>
        by_cases heq : outpoint = ⟨txid, UInt32.ofNat first⟩
        · rw [heq, AList.lookup_insert] at hhead
          obtain rfl := Option.some.inj hhead
          rw [heq]
          exact .inr ⟨rfl, by rw [hmine]; rfl, 0, rfl, rfl⟩
        · rw [AList.lookup_insert_ne heq] at hhead
          exact .inl hhead
      · exact .inl hhead
    · exact .inr ⟨hhash, hmine, i + 1, hget, by rw [← hindex]; congr 1; omega⟩

theorem mem_add_outputs {txid : Txid} {height : Option Int} {first : Nat} {outputs : List TxOut}
    {unspent : HashMap OutPoint WalletUtxo} {outpoint : OutPoint}
    (hmem : outpoint ∈ unspent ∨ outpoint.hash = txid ∧ ∃ i output, outputs[i]? = some output ∧
      (wallet.is_mine output.script_pubkey).isSome = true ∧ UInt32.ofNat (first + i) = outpoint.n) :
    outpoint ∈ wallet.add_outputs txid height first outputs unspent := by
  induction outputs generalizing first unspent with
  | nil =>
    rcases hmem with hold | ⟨-, _, _, hget, -⟩
    · exact hold
    · cases hget
  | cons output outputs ih =>
    rw [Wallet.add_outputs]
    apply ih
    rcases hmem with hold | ⟨hhash, i, found, hget, hmine, hindex⟩
    · left
      split
      · exact (AList.mem_insert _).mpr (.inr hold)
      · exact hold
    · cases i with
      | zero =>
        left
        obtain rfl := Option.some.inj hget
        obtain ⟨is_change, hchange⟩ := Option.isSome_iff_exists.mp hmine
        rw [hchange]
        refine (AList.mem_insert _).mpr (.inl ?_)
        obtain ⟨hash, n⟩ := outpoint
        exact congrArg₂ OutPoint.mk hhash hindex.symm
      | succ i =>
        exact .inr ⟨hhash, i, found, hget, hmine, by rw [← hindex]; congr 1; omega⟩

/-- An entry for an outpoint is there after a notification when the transaction pays it, or when
    it was there and the transaction does not spend it. -/
theorem mem_add_transaction {self : TrackingWallet} {tx : Transaction} {height : Option Int} {now : Nat}
    {outpoint : OutPoint} : outpoint ∈ (self.add_transaction tx height now).unspent ↔
      (∃ output, self.Pays tx outpoint output) ∨ outpoint ∈ self.unspent ∧ ¬ Spends tx outpoint := by
  have hkept : (∀ input ∈ tx.vin, input.prevout ≠ outpoint) ↔ ¬ Spends tx outpoint :=
    ⟨fun hnone ⟨input, hmem, heq⟩ => hnone input hmem heq, fun hnone input hmem heq => hnone ⟨input, hmem, heq⟩⟩
  rw [← hkept, ← mem_foldl_erase]
  constructor
  · intro hmem
    obtain ⟨utxo, hlookup⟩ := Option.isSome_iff_exists.mp (AList.lookup_isSome.mpr hmem)
    rcases lookup_add_outputs hlookup with hold | ⟨hhash, hmine, i, hget, hindex⟩
    · exact .inr (AList.lookup_isSome.mp (Option.isSome_iff_exists.mpr ⟨utxo, hold⟩))
    · exact .inl ⟨utxo.tx_out, hhash, hmine, i, hget, by rwa [Nat.zero_add] at hindex⟩
  · intro hmem
    apply mem_add_outputs
    rcases hmem with ⟨output, hhash, hmine, i, hget, hindex⟩ | hold
    · exact .inr ⟨hhash, i, output, hget, hmine, by rwa [Nat.zero_add]⟩
    · exact .inl hold

section

variable {notifications : List Notification}

theorem told_concat (notifications : List Notification) (n : Notification) :
    wallet.told (notifications ++ [n]) = (wallet.told notifications).add_transaction n.tx n.height n.now := by
  unfold Wallet.told
  rw [List.foldl_append]
  rfl

theorem toWallet_told (notifications : List Notification) : (wallet.told notifications).toWallet = wallet := by
  induction notifications using List.reverseRecOn with
  | nil => rfl
  | append_singleton notifications n ih =>
    rw [told_concat]
    exact ih

theorem mem_unspent_told {outpoint : OutPoint} : outpoint ∈ (wallet.told notifications).unspent ↔
    ledger.Live (fun tx outpoint => ∃ output, wallet.Pays tx outpoint output) Spends
      (notifications.map Notification.tx) outpoint := by
  induction notifications using List.reverseRecOn with
  | nil =>
    constructor
    · intro hmem
      exact absurd hmem (AList.notMem_empty outpoint)
    · rintro ⟨before, _, _, hnil, -⟩
      exact absurd hnil.symm (List.append_ne_nil_of_right_ne_nil before (List.cons_ne_nil _ _))
  | append_singleton notifications n ih =>
    rw [told_concat, mem_add_transaction, toWallet_told, ih, List.map_append, List.map_singleton, ledger.live_concat]

/-- The wallet has a record of the transaction. -/
def TrackingWallet.Tracks (self : TrackingWallet) (tx : Transaction) : Prop :=
  ∃ txid record, self.transactions.lookup txid = some record ∧ record.tx = tx

/-- Transactions with one id are the same. -/
def DistinctIds (notifications : List Notification) : Prop :=
  ∀ n ∈ notifications, ∀ m ∈ notifications, n.tx.txid = m.tx.txid → n.tx = m.tx

theorem lookup_transactions_told {txid : Txid} {record : WalletTx}
    (hlookup : (wallet.told notifications).transactions.lookup txid = some record) :
    record.tx ∈ notifications.map Notification.tx := by
  induction notifications using List.reverseRecOn with
  | nil => cases hlookup
  | append_singleton notifications n ih =>
    rw [List.map_append]
    rw [told_concat] at hlookup
    by_cases heq : txid = n.tx.txid
    · subst heq
      have hsame := (AList.lookup_insert _).symm.trans hlookup
      rw [← Option.some.inj hsame]
      exact List.mem_append_right _ List.mem_cons_self
    · exact List.mem_append_left _ (ih ((AList.lookup_insert_ne heq).symm.trans hlookup))

theorem exists_lookup_transactions_told {n : Notification} (hmem : n ∈ notifications) :
    ∃ record, (wallet.told notifications).transactions.lookup n.tx.txid = some record ∧
      record.tx.txid = n.tx.txid := by
  induction notifications using List.reverseRecOn with
  | nil => cases hmem
  | append_singleton notifications last ih =>
    rw [told_concat]
    by_cases heq : n.tx.txid = last.tx.txid
    · rw [heq]
      exact ⟨_, AList.lookup_insert _, rfl⟩
    · rcases List.mem_append.mp hmem with hold | hnew
      · obtain ⟨record, hlookup, hid⟩ := ih hold
        exact ⟨record, (AList.lookup_insert_ne heq).trans hlookup, hid⟩
      · rw [List.mem_singleton.mp hnew] at heq
        exact absurd rfl heq

theorem tracks_iff (hdistinct : DistinctIds notifications) {tx : Transaction} :
    (wallet.told notifications).Tracks tx ↔ tx ∈ notifications.map Notification.tx := by
  constructor
  · rintro ⟨txid, record, hlookup, rfl⟩
    exact lookup_transactions_told hlookup
  · intro hmem
    obtain ⟨n, hn, rfl⟩ := List.mem_map.mp hmem
    obtain ⟨record, hlookup, hid⟩ := @exists_lookup_transactions_told wallet notifications n hn
    obtain ⟨m, hm, hsame⟩ := List.mem_map.mp (lookup_transactions_told hlookup)
    refine ⟨_, record, hlookup, ?_⟩
    rw [← hsame] at hid ⊢
    exact hdistinct m hm n hn hid

theorem pays_of_lookup_unspent {outpoint : OutPoint} {utxo : WalletUtxo}
    (hlookup : (wallet.told notifications).unspent.lookup outpoint = some utxo) :
    ∃ tx ∈ notifications.map Notification.tx, wallet.Pays tx outpoint utxo.tx_out := by
  induction notifications using List.reverseRecOn with
  | nil => cases hlookup
  | append_singleton notifications n ih =>
    rw [List.map_append]
    rw [told_concat] at hlookup
    rcases lookup_add_outputs hlookup with hold | ⟨hhash, hmine, i, hget, hindex⟩
    · obtain ⟨tx, hmem, hpays⟩ := ih (lookup_foldl_erase hold)
      exact ⟨tx, List.mem_append_left _ hmem, hpays⟩
    · rw [toWallet_told] at hmine
      rw [Nat.zero_add] at hindex
      exact ⟨n.tx, List.mem_append_right _ List.mem_cons_self, hhash, hmine, i, hget, hindex⟩

/-- The outputs taken for unspent are exactly those of tracked transactions that pay to the wallet
    and that no tracked transaction spends. -/
def TrackingWallet.Exact (self : TrackingWallet) : Prop :=
  (∀ outpoint, outpoint ∈ self.unspent ↔ (∃ tx output, self.Tracks tx ∧ self.Pays tx outpoint output) ∧
    ∀ tx, self.Tracks tx → ¬ Spends tx outpoint) ∧
  ∀ outpoint utxo, self.unspent.lookup outpoint = some utxo → ∃ tx, self.Tracks tx ∧ self.Pays tx outpoint utxo.tx_out

variable (wallet) in
/-- Every notification of an output of the wallet that some notified transaction spends has a
    notification of such a transaction after it. -/
def SpendsAfter (notifications : List Notification) : Prop :=
  ledger.Ordered (fun tx outpoint => ∃ output, wallet.Pays tx outpoint output) Spends (notifications.map Notification.tx)

theorem exact_iff_live (hdistinct : DistinctIds notifications) : (wallet.told notifications).Exact ↔
    ∀ outpoint, outpoint ∈ (wallet.told notifications).unspent ↔
      ledger.Settled (fun tx outpoint => ∃ output, wallet.Pays tx outpoint output) Spends
        (notifications.map Notification.tx) outpoint := by
  have hsettled : ∀ outpoint, ((∃ tx output, (wallet.told notifications).Tracks tx ∧ wallet.Pays tx outpoint output) ∧
      ∀ tx, (wallet.told notifications).Tracks tx → ¬ Spends tx outpoint) ↔
      ledger.Settled (fun tx outpoint => ∃ output, wallet.Pays tx outpoint output) Spends
        (notifications.map Notification.tx) outpoint := by
    intro outpoint
    simp only [tracks_iff hdistinct, ledger.Settled, exists_and_left]
  have hentries : ∀ outpoint utxo, (wallet.told notifications).unspent.lookup outpoint = some utxo →
      ∃ tx, (wallet.told notifications).Tracks tx ∧ wallet.Pays tx outpoint utxo.tx_out := by
    intro outpoint utxo hlookup
    obtain ⟨tx, hmem, hpays⟩ := pays_of_lookup_unspent hlookup
    exact ⟨tx, (tracks_iff hdistinct).mpr hmem, hpays⟩
  unfold TrackingWallet.Exact
  rw [toWallet_told]
  exact ⟨fun hexact outpoint => (hexact.1 outpoint).trans (hsettled outpoint),
    fun hall => ⟨fun outpoint => (hall outpoint).trans (hsettled outpoint).symm, hentries⟩⟩

/-- The outputs taken for unspent are the right ones exactly when spending transactions are
    notified after those they spend, and again after each repetition; then the order and the
    repetitions of the notifications do not matter otherwise. -/
theorem unspent_exact_iff (wallet : Wallet) (notifications : List Notification) (hdistinct : DistinctIds notifications) :
    ((wallet.told notifications).Exact ↔ SpendsAfter wallet notifications) ∧
    ∀ others, (∀ tx, tx ∈ others.map Notification.tx ↔ tx ∈ notifications.map Notification.tx) →
      SpendsAfter wallet notifications → SpendsAfter wallet others →
      ∀ outpoint, outpoint ∈ (wallet.told others).unspent ↔ outpoint ∈ (wallet.told notifications).unspent := by
  refine ⟨?_, fun others hsame hordered hothers outpoint => ?_⟩
  · rw [exact_iff_live hdistinct, SpendsAfter, ← ledger.live_iff_settled]
    simp only [mem_unspent_told]
  · rw [mem_unspent_told, mem_unspent_told, ledger.live_iff_settled.mpr hordered outpoint,
      ledger.live_iff_settled.mpr hothers outpoint]
    exact ledger.settled_congr hsame outpoint

end

/-- A payment to the address of the wallet, and one that spends it. -/
def parent_payment : Transaction :=
  .new crypto.sha256d 2 [⟨⟨1, 0⟩, .new, SEQUENCE_FINAL, .new⟩] [legacy_output] 0

def child_payment : Transaction :=
  .new crypto.sha256d 2 [⟨⟨parent_payment.txid, 0⟩, legacy_script_sig, SEQUENCE_FINAL, .new⟩] [⟨90000, ⟨[0x51]⟩⟩] 0

def parent_notification : Notification := ⟨parent_payment, none, 0⟩

def child_notification : Notification := ⟨child_payment, none, 1⟩

theorem payment_ids_ne : parent_payment.txid ≠ child_payment.txid := by
  decide +kernel

theorem distinctIds_payments {notifications : List Notification}
    (hnotifications : ∀ n ∈ notifications, n = parent_notification ∨ n = child_notification) :
    DistinctIds notifications := by
  intro n hn m hm hid
  rcases hnotifications n hn with rfl | rfl <;> rcases hnotifications m hm with rfl | rfl
  · rfl
  · exact absurd hid payment_ids_ne
  · exact absurd hid.symm payment_ids_ne
  · rfl

theorem unspent_exact_parent_first : DistinctIds [parent_notification, child_notification] ∧
    SpendsAfter legacy_wallet [parent_notification, child_notification] ∧
    (legacy_wallet.told [parent_notification, child_notification]).Exact := by
  have hdistinct : DistinctIds [parent_notification, child_notification] := distinctIds_payments (by simp)
  have hordered : SpendsAfter legacy_wallet [parent_notification, child_notification] := by
    rintro before step after hsplit outpoint ⟨output, hhash, hmine, i, hget, hindex⟩ -
    change [parent_payment, child_payment] = _ at hsplit
    cases before with
    | nil =>
      obtain ⟨rfl, rfl⟩ := List.cons.inj hsplit
      cases i with
      | zero =>
        refine ⟨child_payment, List.mem_cons_self, _, List.mem_cons_self, ?_⟩
        obtain ⟨hash, n⟩ := outpoint
        exact congrArg₂ OutPoint.mk hhash.symm hindex
      | succ i => cases hget
    | cons first before =>
      obtain ⟨-, hsplit⟩ := List.cons.inj hsplit
      have hstep : step ∈ [child_payment] := by
        rw [hsplit]
        exact List.mem_append_right _ List.mem_cons_self
      obtain rfl := List.mem_singleton.mp hstep
      cases i with
      | zero =>
        obtain rfl := Option.some.inj hget
        exact absurd hmine (by decide)
      | succ i => cases hget
  exact ⟨hdistinct, hordered, ((unspent_exact_iff legacy_wallet _ hdistinct).1).mpr hordered⟩

/-- The spending transaction is notified first: the output it spends stays in the wallet. -/
theorem unspent_not_exact_child_first : DistinctIds [child_notification, parent_notification] ∧
    ⟨parent_payment.txid, 0⟩ ∈ (legacy_wallet.told [child_notification, parent_notification]).unspent ∧
    ⟨parent_payment.txid, 0⟩ ∉ (legacy_wallet.told [parent_notification, child_notification]).unspent ∧
    ¬ (legacy_wallet.told [child_notification, parent_notification]).Exact := by
  have hdistinct : DistinctIds [child_notification, parent_notification] := distinctIds_payments (by simp)
  have hmem : ⟨parent_payment.txid, 0⟩ ∈ (legacy_wallet.told [child_notification, parent_notification]).unspent := by
    decide +kernel
  refine ⟨hdistinct, hmem, by decide +kernel, fun hexact => ?_⟩
  have htracks : (legacy_wallet.told [child_notification, parent_notification]).Tracks child_payment :=
    (tracks_iff hdistinct).mpr List.mem_cons_self
  exact ((hexact.1 _).mp hmem).2 child_payment htracks ⟨_, List.mem_cons_self, rfl⟩

end qubitcoin.wallet
