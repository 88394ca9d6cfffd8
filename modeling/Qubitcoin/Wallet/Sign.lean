import Qubitcoin.Consensus.Sighash
import Qubitcoin.Consensus.Wire

/-! `qubitcoin-wallet/wallet.rs`: signing a transaction in place, and what becomes of the
    ids the transaction carries. -/

open qubitcoin primitives script transaction serialize sighash

namespace qubitcoin.wallet

/-- The script template of an address. -/
inductive DescriptorType where
  | Pkh | Wpkh | ShWpkh | Tr
  deriving DecidableEq, Repr

/-- A key of the wallet. The signatures come from the library for the curve; they are
    `none` where it reports an error. -/
structure WalletKey where
  sign : Uint256 → Option (List UInt8)
  sign_schnorr : Uint256 → Option (List UInt8)
  pubkey : List UInt8
  descriptor_type : DescriptorType

structure AddressInfo where
  script_pubkey : Script
  key_index : Nat

structure Wallet where
  keys : List WalletKey
  addresses : List AddressInfo
  change_addresses : List AddressInfo

/-- The key of the first address, receiving or change, that has the script. -/
def Wallet.find_key_for_script (self : Wallet) (script_pubkey : Script) : Option WalletKey :=
  match (self.addresses ++ self.change_addresses).find? (fun addr => addr.script_pubkey == script_pubkey) with
  | some addr => self.keys[addr.key_index]?
  | none => none

variable (hashes : Hashes)

def WalletKey.key_hash_witness (self : WalletKey) (tx : Transaction) (i : Nat) (prev_out : TxOut)
    (precomputed : PrecomputedTransactionData) : Except Panic (Option Witness) := do
  let script_code := build_p2pkh (hashes.hash160 self.pubkey)
  let sighash ← witness_v0_signature_hash hashes script_code tx i SIGHASH_ALL prev_out.value precomputed
  pure ((self.sign sighash).map fun der_sig => ⟨[der_sig ++ [SIGHASH_ALL.toUInt8], self.pubkey]⟩)

/-- What signing with a key makes of an input; `none` where the input is not signed. -/
def WalletKey.sign_input (self : WalletKey) (tx : Transaction) (i : Nat) (prev_out : TxOut)
    (precomputed : PrecomputedTransactionData) : Except Panic (Option (TxIn → TxIn)) :=
  match self.descriptor_type with
  | .Pkh =>
    let sighash := signature_hash hashes prev_out.script_pubkey tx i SIGHASH_ALL
    .ok ((self.sign sighash).map fun der_sig input =>
      { input with script_sig := (Script.new.push_data (der_sig ++ [SIGHASH_ALL.toUInt8])).push_data self.pubkey })
  | .Wpkh => do
    let witness ← self.key_hash_witness hashes tx i prev_out precomputed
    pure (witness.map fun witness input => { input with witness, script_sig := .new })
  | .ShWpkh => do
    let witness ← self.key_hash_witness hashes tx i prev_out precomputed
    let redeem_script := build_p2wpkh (hashes.hash160 self.pubkey)
    pure (witness.map fun witness input =>
      { input with witness, script_sig := Script.new.push_data redeem_script.data })
  | .Tr => do
    let sighash ← taproot_signature_hash hashes tx i 0 precomputed 0 none none none
    pure ((sighash.bind self.sign_schnorr).map fun schnorr_sig input =>
      { input with witness := ⟨[schnorr_sig]⟩, script_sig := .new })

/-- What the wallet makes of input `i`, which spends `prev_out`. -/
def Wallet.sign_input (self : Wallet) (tx : Transaction) (i : Nat) (prev_out : TxOut)
    (precomputed : PrecomputedTransactionData) : Except Panic (Option (TxIn → TxIn)) :=
  match self.find_key_for_script prev_out.script_pubkey with
  | none => .ok none
  | some wk => wk.sign_input hashes tx i prev_out precomputed

/-- The loop over the inputs. The edited inputs go into the transaction, next to the ids
    it was built with. -/
def Wallet.sign_inputs (self : Wallet) (precomputed : PrecomputedTransactionData) :
    Nat → List TxOut → Transaction → Nat → Except Panic (Transaction × Nat)
  | _, [], tx, signed => .ok (tx, signed)
  | i, prev_out :: rest, tx, signed => do
    match ← self.sign_input hashes tx i prev_out precomputed with
    | none => self.sign_inputs precomputed (i + 1) rest tx signed
    | some edit => self.sign_inputs precomputed (i + 1) rest { tx with vin := tx.vin.modify i edit } (signed + 1)

/-- Sign the inputs that spend outputs of the wallet; the result is the edited
    transaction and the number of signed inputs. -/
def Wallet.sign_transaction (self : Wallet) (tx : Transaction) (spent_outputs : List TxOut) :
    Except Panic (Transaction × Nat) :=
  if tx.vin.length = spent_outputs.length then
    self.sign_inputs hashes (.new hashes tx spent_outputs) 0 spent_outputs tx 0
  else .error (.assertion_failed "assert_eq!(tx.vin.len(), spent_outputs.len())")

/-- The ids a transaction carries are those of its contents. -/
def IdsMatch (tx : Transaction) : Prop :=
  tx.txid = hashes.hash256 (serialize_transaction tx false) ∧ tx.wtxid = hashes.hash256 (serialize_transaction tx true)

theorem idsMatch_new (version : UInt32) (vin : List TxIn) (vout : List TxOut) (lock_time : UInt32) :
    IdsMatch hashes (.new hashes.hash256 version vin vout lock_time) := ⟨rfl, rfl⟩

theorem IdsMatch.eq_new {tx : Transaction} (hids : IdsMatch hashes tx) :
    tx = .new hashes.hash256 tx.version tx.vin tx.vout tx.lock_time := by
  obtain ⟨version, vin, vout, lock_time, hash, witness_hash⟩ := tx
  obtain ⟨htxid, hwtxid⟩ := hids
  change hash = _ at htxid
  change witness_hash = _ at hwtxid
  rw [htxid, hwtxid]
  rfl

/-- The input carries the witness of a key hash output, and the given script. -/
def CarriesKeyHash (wk : WalletKey) (tx : Transaction) (i : Nat) (prev_out : TxOut)
    (precomputed : PrecomputedTransactionData) (script_sig : Script) (input : TxIn) : Prop :=
  ∀ sighash der_sig, witness_v0_signature_hash hashes (build_p2pkh (hashes.hash160 wk.pubkey)) tx i SIGHASH_ALL
      prev_out.value precomputed = .ok sighash → wk.sign sighash = some der_sig →
    input.witness = ⟨[der_sig ++ [SIGHASH_ALL.toUInt8], wk.pubkey]⟩ ∧ input.script_sig = script_sig

/-- The input carries the signature of a key, where the library makes one. -/
def SignedBy (wk : WalletKey) (tx : Transaction) (i : Nat) (prev_out : TxOut)
    (precomputed : PrecomputedTransactionData) (input : TxIn) : Prop :=
  match wk.descriptor_type with
  | .Pkh => ∀ der_sig, wk.sign (signature_hash hashes prev_out.script_pubkey tx i SIGHASH_ALL) = some der_sig →
    input.script_sig = (Script.new.push_data (der_sig ++ [SIGHASH_ALL.toUInt8])).push_data wk.pubkey
  | .Wpkh => CarriesKeyHash hashes wk tx i prev_out precomputed .new input
  | .ShWpkh => CarriesKeyHash hashes wk tx i prev_out precomputed
    (Script.new.push_data (build_p2wpkh (hashes.hash160 wk.pubkey)).data) input
  | .Tr => ∀ sighash schnorr_sig, taproot_signature_hash hashes tx i 0 precomputed 0 none none none = .ok (some sighash) →
    wk.sign_schnorr sighash = some schnorr_sig → input.witness = ⟨[schnorr_sig]⟩ ∧ input.script_sig = .new

/-- Every input that spends an output of the wallet is signed already. -/
def Settled (wallet : Wallet) (tx : Transaction) (spent_outputs : List TxOut) : Prop :=
  ∀ (i : Nat) (input : TxIn) (prev_out : TxOut) (wk : WalletKey), tx.vin[i]? = some input →
    spent_outputs[i]? = some prev_out → wallet.find_key_for_script prev_out.script_pubkey = some wk →
      SignedBy hashes wk tx i prev_out (.new hashes tx spent_outputs) input

theorem WalletKey.key_hash_witness_eq_ok {wk : WalletKey} {tx : Transaction} {i : Nat} {prev_out : TxOut}
    {precomputed : PrecomputedTransactionData} {witness : Witness}
    (hwitness : wk.key_hash_witness hashes tx i prev_out precomputed = .ok (some witness)) :
    ∃ sighash der_sig, witness_v0_signature_hash hashes (build_p2pkh (hashes.hash160 wk.pubkey)) tx i SIGHASH_ALL
        prev_out.value precomputed = .ok sighash ∧ wk.sign sighash = some der_sig ∧
      witness = ⟨[der_sig ++ [SIGHASH_ALL.toUInt8], wk.pubkey]⟩ := by
  unfold WalletKey.key_hash_witness at hwitness
  obtain ⟨sighash, hsighash, hwitness⟩ := bind_eq_ok_iff.mp hwitness
  obtain ⟨der_sig, hsign, hmade⟩ := Option.map_eq_some_iff.mp (Except.ok.inj hwitness)
  exact ⟨sighash, der_sig, hsighash, hsign, hmade.symm⟩

theorem WalletKey.sign_input_signed {wk : WalletKey} {tx : Transaction} {i : Nat} {prev_out : TxOut}
    {precomputed : PrecomputedTransactionData} {input : TxIn} {edit : TxIn → TxIn}
    (hsigned : SignedBy hashes wk tx i prev_out precomputed input)
    (hedit : wk.sign_input hashes tx i prev_out precomputed = .ok (some edit)) : edit input = input := by
  obtain ⟨prevout, script_sig, sequence, witness⟩ := input
  unfold WalletKey.sign_input at hedit
  unfold SignedBy at hsigned
  split at hedit
  · next htype =>
    rw [htype] at hsigned
    obtain ⟨der_sig, hsign, rfl⟩ := Option.map_eq_some_iff.mp (Except.ok.inj hedit)
    have hscript : script_sig = _ := hsigned der_sig hsign
    rw [hscript]
  · next htype =>
    rw [htype] at hsigned
    obtain ⟨made, hmade, hedit⟩ := bind_eq_ok_iff.mp hedit
    obtain ⟨made, rfl, rfl⟩ := Option.map_eq_some_iff.mp (Except.ok.inj hedit)
    obtain ⟨sighash, der_sig, hsighash, hsign, rfl⟩ := WalletKey.key_hash_witness_eq_ok hashes hmade
    obtain ⟨hwitness, hscript⟩ := hsigned sighash der_sig hsighash hsign
    dsimp only at hwitness hscript ⊢
    rw [hwitness, hscript]
  · next htype =>
    rw [htype] at hsigned
    obtain ⟨made, hmade, hedit⟩ := bind_eq_ok_iff.mp hedit
    obtain ⟨made, rfl, rfl⟩ := Option.map_eq_some_iff.mp (Except.ok.inj hedit)
    obtain ⟨sighash, der_sig, hsighash, hsign, rfl⟩ := WalletKey.key_hash_witness_eq_ok hashes hmade
    obtain ⟨hwitness, hscript⟩ := hsigned sighash der_sig hsighash hsign
    dsimp only at hwitness hscript ⊢
    rw [hwitness, hscript]
  · next htype =>
    rw [htype] at hsigned
    obtain ⟨sighash, hsighash, hedit⟩ := bind_eq_ok_iff.mp hedit
    obtain ⟨schnorr_sig, hmade, rfl⟩ := Option.map_eq_some_iff.mp (Except.ok.inj hedit)
    obtain ⟨sighash, rfl, hsign⟩ := Option.bind_eq_some_iff.mp hmade
    obtain ⟨hwitness, hscript⟩ := hsigned sighash schnorr_sig hsighash hsign
    dsimp only at hwitness hscript ⊢
    rw [hwitness, hscript]

theorem modify_eq_self {input : TxIn} {edit : TxIn → TxIn} : ∀ {vin : List TxIn} {i : Nat},
    vin[i]? = some input → edit input = input → vin.modify i edit = vin := by
  intro vin i hget hsame
  apply List.ext_getElem?
  intro j
  rw [List.getElem?_modify]
  split
  · next hij =>
    subst hij
    rw [hget]
    exact congrArg some hsame
  · exact congrFun Option.map_id _

theorem Wallet.sign_input_eq_ok (wallet : Wallet) {tx : Transaction} {i : Nat} {prev_out : TxOut}
    {precomputed : PrecomputedTransactionData} {edit : TxIn → TxIn}
    (hedit : wallet.sign_input hashes tx i prev_out precomputed = .ok (some edit)) :
    ∃ wk, wallet.find_key_for_script prev_out.script_pubkey = some wk ∧
      wk.sign_input hashes tx i prev_out precomputed = .ok (some edit) := by
  unfold Wallet.sign_input at hedit
  split at hedit
  · cases hedit
  · next wk hfound => exact ⟨wk, hfound, hedit⟩

theorem Wallet.sign_inputs_settled (wallet : Wallet) {tx : Transaction} {precomputed : PrecomputedTransactionData}
    {rest : List TxOut} : ∀ {i signed count : Nat} {result : Transaction},
    (∀ (j : Nat) (input : TxIn) (prev_out : TxOut) (wk : WalletKey), tx.vin[i + j]? = some input →
      rest[j]? = some prev_out → wallet.find_key_for_script prev_out.script_pubkey = some wk →
        SignedBy hashes wk tx (i + j) prev_out precomputed input) →
    i + rest.length ≤ tx.vin.length →
    wallet.sign_inputs hashes precomputed i rest tx signed = .ok (result, count) → result = tx := by
  induction rest with
  | nil =>
    intro i signed count result _ _ hsign
    cases hsign
    rfl
  | cons prev_out rest ih =>
    intro i signed count result hsettled hlength hsign
    have hrest : ∀ (j : Nat) (input : TxIn) (prev_out : TxOut) (wk : WalletKey), tx.vin[i + 1 + j]? = some input →
        rest[j]? = some prev_out → wallet.find_key_for_script prev_out.script_pubkey = some wk →
          SignedBy hashes wk tx (i + 1 + j) prev_out precomputed input := by
      intro j input prev_out wk hinput hprev hfound
      rw [Nat.add_right_comm] at hinput ⊢
      exact hsettled (j + 1) input prev_out wk hinput hprev hfound
    rw [List.length_cons] at hlength
    unfold Wallet.sign_inputs at hsign
    obtain ⟨edited, hedited, hsign⟩ := bind_eq_ok_iff.mp hsign
    cases edited with
    | none => exact ih hrest (by omega) hsign
    | some edit =>
      have hbound : i < tx.vin.length := by omega
      have hinput : tx.vin[i]? = some tx.vin[i] := List.getElem?_eq_getElem hbound
      obtain ⟨wk, hfound, hedit⟩ := wallet.sign_input_eq_ok hashes hedited
      have hsigned := hsettled 0 tx.vin[i] prev_out wk hinput rfl hfound
      have hsame := modify_eq_self hinput (WalletKey.sign_input_signed hashes hsigned hedit)
      dsimp only at hsign
      rw [hsame] at hsign
      exact ih hrest (by omega) hsign

theorem Wallet.sign_transaction_settled {wallet : Wallet} {tx result : Transaction} {spent_outputs : List TxOut}
    {count : Nat} (hsettled : Settled hashes wallet tx spent_outputs)
    (hsign : wallet.sign_transaction hashes tx spent_outputs = .ok (result, count)) : result = tx := by
  unfold Wallet.sign_transaction at hsign
  split at hsign
  · next hlength =>
    refine wallet.sign_inputs_settled hashes ?_ (by omega) hsign
    intro j input prev_out wk hinput hprev hfound
    rw [Nat.zero_add] at hinput ⊢
    exact hsettled j input prev_out wk hinput hprev hfound
  · cases hsign

theorem deserialize_transaction_ids {allow_witness : Bool} {input rest : List UInt8} {tx : Transaction}
    (hread : (deserialize_transaction hashes.hash256 allow_witness).run input = .ok (tx, rest)) : IdsMatch hashes tx := by
  unfold deserialize_transaction at hread
  simp only [codec.run_bind_eq_ok, codec.run_pure_eq_ok] at hread
  obtain ⟨_, _, _, _, _, _, _, _, _, _, _, _, _, _, _, htx, _⟩ := hread
  rw [← htx]
  exact idsMatch_new hashes _ _ _ _

/-- The transactions that come from building, decoding and any number of signings, each
    of a transaction that meets a condition. -/
inductive Produced (condition : Wallet → Transaction → List TxOut → Prop) : Transaction → Prop
  | new (version : UInt32) (vin : List TxIn) (vout : List TxOut) (lock_time : UInt32) :
    Produced condition (.new hashes.hash256 version vin vout lock_time)
  | decoded {allow_witness : Bool} {input rest : List UInt8} {tx : Transaction}
    (hread : (deserialize_transaction hashes.hash256 allow_witness).run input = .ok (tx, rest)) : Produced condition tx
  | signed {wallet : Wallet} {tx result : Transaction} {spent_outputs : List TxOut} {count : Nat}
    (htx : Produced condition tx) (hcondition : condition wallet tx spent_outputs)
    (hsign : wallet.sign_transaction hashes tx spent_outputs = .ok (result, count)) : Produced condition result

theorem Produced.idsMatch {tx : Transaction} (htx : Produced hashes (Settled hashes) tx) : IdsMatch hashes tx := by
  induction htx with
  | new version vin vout lock_time => exact idsMatch_new hashes version vin vout lock_time
  | decoded hread => exact deserialize_transaction_ids hashes hread
  | signed htx hsettled hsign ih =>
    rw [Wallet.sign_transaction_settled hashes hsettled hsign]
    exact ih

/-- As long as signing is only asked for transactions whose inputs are settled, the ids a
    transaction carries are those of its contents; decoding its wire form gives the same
    ids. -/
theorem produced_ids_match {tx : Transaction} (htx : Produced hashes (Settled hashes) tx) :
    IdsMatch hashes tx ∧
      ∀ rest : List UInt8, (tx.vin ≠ [] ∨ tx.vin = [] ∧ tx.vout = []) → Sized tx.vin tx.vout →
        ∃ received, (deserialize_transaction hashes.hash256 true).run (serialize_transaction tx true ++ rest) =
            .ok (received, rest) ∧
          received.txid = tx.txid ∧ received.wtxid = tx.wtxid := by
  have hids := htx.idsMatch
  refine ⟨hids, fun rest hinputs hsized => ⟨tx, ?_, rfl, rfl⟩⟩
  rw [deserialize_transaction_eq_ok]
  exact ⟨⟨hids.eq_new, hinputs, hsized⟩, rfl⟩

/-- Double SHA-256 and SHA-256; the outputs below are not of a kind that needs `hash160`. -/
def sha_hashes : Hashes := ⟨crypto.sha256d, crypto.sha256, fun bytes => (crypto.sha256 bytes).take 20⟩

def legacy_wallet : Wallet where
  keys := [{ sign := fun _ => some [0x30, 0x06, 0x02, 0x01, 0x11, 0x02, 0x01, 0x22], sign_schnorr := fun _ => none
             pubkey := 0x02 :: List.replicate 32 0x79, descriptor_type := .Pkh }]
  addresses := [⟨build_p2pkh (List.replicate 20 0x14), 0⟩]
  change_addresses := []

def legacy_output : TxOut := ⟨100000, build_p2pkh (List.replicate 20 0x14)⟩

def legacy_script_sig : Script :=
  (Script.new.push_data [0x30, 0x06, 0x02, 0x01, 0x11, 0x02, 0x01, 0x22, 0x01]).push_data
    (0x02 :: List.replicate 32 0x79)

/-- A payment from the address, with the given script in its input. -/
def payment (script_sig : Script) : Transaction :=
  .new crypto.sha256d 2 [⟨⟨1, 0⟩, script_sig, SEQUENCE_FINAL, .new⟩] [⟨90000, ⟨[0x51]⟩⟩] 0

/-- A payment that was built with its signature keeps its ids when it is signed again. -/
theorem produced_ids_match_signed_payment :
    legacy_wallet.sign_transaction sha_hashes (payment legacy_script_sig) [legacy_output] =
      .ok (payment legacy_script_sig, 1) ∧ IdsMatch sha_hashes (payment legacy_script_sig) := by
  have hsign : legacy_wallet.sign_transaction sha_hashes (payment legacy_script_sig) [legacy_output] =
      .ok (payment legacy_script_sig, 1) := rfl
  have hsettled : Settled sha_hashes legacy_wallet (payment legacy_script_sig) [legacy_output] := by
    intro i input prev_out wk hinput hprev hfound
    match i with
    | 0 =>
      cases hinput
      cases hprev
      cases hfound
      intro der_sig hder
      cases hder
      rfl
    | _ + 1 => cases hprev
  exact ⟨hsign, (produced_ids_match sha_hashes (.signed (.new 2 _ _ 0) hsettled hsign)).1⟩

/-- The ids of a payment are stale once it is signed. -/
theorem signed_payment_ids_stale :
    ∃ signed, legacy_wallet.sign_transaction sha_hashes (payment .new) [legacy_output] = .ok (signed, 1) ∧
      signed.txid ≠ crypto.sha256d (serialize_transaction signed false) ∧
      signed.wtxid ≠ crypto.sha256d (serialize_transaction signed true) := by
  refine ⟨{ payment .new with vin := (payment legacy_script_sig).vin }, rfl, ?_, ?_⟩
  · decide +kernel
  · decide +kernel

end qubitcoin.wallet

/-! Signing one input after the other: the signatures do not depend on each other, since none of
    the hashes looks at scripts or witnesses of inputs. -/

namespace qubitcoin.sighash

/-- What every signature hash sees of an input. -/
def outline (input : TxIn) : OutPoint × UInt32 := (input.prevout, input.sequence)

/-- Two transactions that differ in the scripts and witnesses of their inputs. -/
structure SameOutline (tx other : Transaction) : Prop where
  version : other.version = tx.version
  vin : other.vin.map outline = tx.vin.map outline
  vout : other.vout = tx.vout
  lock_time : other.lock_time = tx.lock_time

variable {tx other : Transaction}

theorem SameOutline.refl (tx : Transaction) : SameOutline tx tx := ⟨rfl, rfl, rfl, rfl⟩

theorem SameOutline.trans {last : Transaction} (hfirst : SameOutline tx other) (hsecond : SameOutline other last) :
    SameOutline tx last :=
  ⟨hsecond.version.trans hfirst.version, hsecond.vin.trans hfirst.vin, hsecond.vout.trans hfirst.vout,
    hsecond.lock_time.trans hfirst.lock_time⟩

theorem SameOutline.length (hsame : SameOutline tx other) : other.vin.length = tx.vin.length := by
  have hlength := congrArg List.length hsame.vin
  rwa [List.length_map, List.length_map] at hlength

theorem SameOutline.getElem? (hsame : SameOutline tx other) (i : Nat) :
    other.vin[i]?.map outline = tx.vin[i]?.map outline := by
  rw [← List.getElem?_map, ← List.getElem?_map, hsame.vin]

theorem SameOutline.flatMap (hsame : SameOutline tx other) (g : OutPoint × UInt32 → List UInt8) :
    other.vin.flatMap (fun input => g (outline input)) = tx.vin.flatMap fun input => g (outline input) := by
  rw [← List.flatMap_map, hsame.vin, List.flatMap_map]

theorem flatMap_zipIdx_outline {vin : List TxIn} {keep : Nat → Bool} {f : TxIn → Nat → List UInt8}
    {g : OutPoint × UInt32 → Nat → List UInt8} (hf : ∀ input i, f input i = g (outline input) i) :
    (vin.zipIdx.filter fun item => keep item.2).flatMap (fun item => f item.1 item.2) =
      ((vin.map outline).zipIdx.filter fun item => keep item.2).flatMap fun item => g item.1 item.2 := by
  rw [List.zipIdx_map, List.filter_map, List.flatMap_map]
  exact congrArg (List.flatMap · _) (funext fun item => hf item.1 item.2)

variable {hashes : Hashes} {script_code : Script} {input_index : Nat} {hash_type : UInt32}

theorem SameOutline.precomputed (hsame : SameOutline tx other) (spent_outputs : List TxOut) :
    PrecomputedTransactionData.new hashes other spent_outputs = .new hashes tx spent_outputs := by
  have hprevouts : (other.vin.flatMap fun input => input.prevout.encode) = tx.vin.flatMap fun input => input.prevout.encode :=
    hsame.flatMap fun part => part.1.encode
  have hsequences : (other.vin.flatMap fun input => encode_u32 input.sequence) =
      tx.vin.flatMap fun input => encode_u32 input.sequence := hsame.flatMap fun part => encode_u32 part.2
  unfold PrecomputedTransactionData.new
  rw [hprevouts, hsequences, hsame.vout]

theorem SameOutline.signature_hash (hsame : SameOutline tx other) :
    signature_hash hashes script_code other input_index hash_type = signature_hash hashes script_code tx input_index hash_type := by
  have hinputs : ∀ (keep : Nat → Bool) (code : Script) (base_type : UInt32),
      ((other.vin.zipIdx.filter fun item => keep item.2).flatMap fun item =>
        legacy_input code input_index base_type item.2 item.1) =
      ((tx.vin.zipIdx.filter fun item => keep item.2).flatMap fun item =>
        legacy_input code input_index base_type item.2 item.1) := by
    intro keep code base_type
    let g (part : OutPoint × UInt32) (i : Nat) : List UInt8 :=
      legacy_input code input_index base_type i ⟨part.1, .new, part.2, .new⟩
    have hg : ∀ vin : List TxIn, ((vin.zipIdx.filter fun item => keep item.2).flatMap fun item =>
        legacy_input code input_index base_type item.2 item.1) =
        ((vin.map outline).zipIdx.filter fun item => keep item.2).flatMap fun item => g item.1 item.2 :=
      fun vin => flatMap_zipIdx_outline (f := fun input i => legacy_input code input_index base_type i input) fun _ _ => rfl
    rw [hg, hg, hsame.vin]
  have houtputs : ∀ base_type, legacy_outputs other input_index base_type = legacy_outputs tx input_index base_type := by
    intro base_type
    unfold legacy_outputs
    rw [hsame.vout]
  unfold sighash.signature_hash
  rw [hsame.length, hsame.vout, hsame.version, hsame.lock_time]
  dsimp only
  rw [houtputs]
  split
  · rfl
  · split
    · rfl
    · rw [hinputs fun i => !decide (hash_type &&& SIGHASH_ANYONECANPAY ≠ 0) || i == input_index]

variable {precomputed : PrecomputedTransactionData}

theorem SameOutline.witness_v0_signature_hash (hsame : SameOutline tx other) {amount : Int} :
    witness_v0_signature_hash hashes script_code other input_index hash_type amount precomputed =
      witness_v0_signature_hash hashes script_code tx input_index hash_type amount precomputed := by
  have hinput := hsame.getElem? input_index
  unfold sighash.witness_v0_signature_hash
  rw [hsame.vout, hsame.version, hsame.lock_time]
  cases htx : tx.vin[input_index]? with
  | none =>
    rw [htx, Option.map_none, Option.map_eq_none_iff] at hinput
    rw [hinput]
  | some input =>
    rw [htx] at hinput
    obtain ⟨same, hother, heq⟩ := Option.map_eq_some_iff.mp hinput
    obtain ⟨hprevout, hsequence⟩ := Prod.mk.inj heq
    rw [hother]
    dsimp only
    rw [hprevout, hsequence]

theorem SameOutline.taproot_signature_hash (hsame : SameOutline tx other) {ext_flag : UInt8}
    {tapleaf_hash annex_hash : Option (List UInt8)} {codesep_pos : Option UInt32} :
    taproot_signature_hash hashes other input_index hash_type precomputed ext_flag tapleaf_hash codesep_pos annex_hash =
      taproot_signature_hash hashes tx input_index hash_type precomputed ext_flag tapleaf_hash codesep_pos annex_hash := by
  have hinput := hsame.getElem? input_index
  have htaproot : ∀ anyone_can_pay, taproot_input other input_index anyone_can_pay precomputed =
      taproot_input tx input_index anyone_can_pay precomputed := by
    intro anyone_can_pay
    unfold taproot_input
    cases htx : tx.vin[input_index]? with
    | none =>
      rw [htx, Option.map_none, Option.map_eq_none_iff] at hinput
      rw [hinput]
    | some input =>
      rw [htx] at hinput
      obtain ⟨same, hother, heq⟩ := Option.map_eq_some_iff.mp hinput
      obtain ⟨hprevout, hsequence⟩ := Prod.mk.inj heq
      rw [hother]
      dsimp only
      rw [hprevout, hsequence]
  unfold sighash.taproot_signature_hash
  rw [hsame.vout, hsame.version, hsame.lock_time]
  simp only [htaproot]

end qubitcoin.sighash

namespace qubitcoin.wallet

open qubitcoin.sighash

variable {hashes : Hashes} {precomputed : PrecomputedTransactionData} {wallet : Wallet}

/-- An edit of an input that signatures do not see. -/
def Keeps (edit : TxIn → TxIn) : Prop := ∀ input, outline (edit input) = outline input

theorem sameOutline_modify {edit : TxIn → TxIn} (hkeeps : Keeps edit) (tx : Transaction) (i : Nat) :
    SameOutline tx { tx with vin := tx.vin.modify i edit } := by
  refine ⟨rfl, ?_, rfl, rfl⟩
  change (tx.vin.modify i edit).map outline = tx.vin.map outline
  apply List.ext_getElem?
  intro j
  rw [List.getElem?_map, List.getElem?_map, List.getElem?_modify]
  split
  · cases tx.vin[j]? with
    | none => rfl
    | some input => exact congrArg some (hkeeps input)
  · cases tx.vin[j]? <;> rfl

theorem WalletKey.sign_input_keeps {wk : WalletKey} {tx : Transaction} {i : Nat} {prev_out : TxOut} {edit : TxIn → TxIn}
    (hedit : wk.sign_input hashes tx i prev_out precomputed = .ok (some edit)) : Keeps edit := by
  intro input
  unfold WalletKey.sign_input at hedit
  split at hedit
  · obtain ⟨_, _, rfl⟩ := Option.map_eq_some_iff.mp (Except.ok.inj hedit)
    rfl
  · obtain ⟨_, _, hedit⟩ := bind_eq_ok_iff.mp hedit
    obtain ⟨_, _, rfl⟩ := Option.map_eq_some_iff.mp (Except.ok.inj hedit)
    rfl
  · obtain ⟨_, _, hedit⟩ := bind_eq_ok_iff.mp hedit
    obtain ⟨_, _, rfl⟩ := Option.map_eq_some_iff.mp (Except.ok.inj hedit)
    rfl
  · obtain ⟨_, _, hedit⟩ := bind_eq_ok_iff.mp hedit
    obtain ⟨_, _, rfl⟩ := Option.map_eq_some_iff.mp (Except.ok.inj hedit)
    rfl

theorem WalletKey.sign_input_congr (wk : WalletKey) {tx other : Transaction} (hsame : SameOutline tx other) (i : Nat)
    (prev_out : TxOut) :
    wk.sign_input hashes other i prev_out precomputed = wk.sign_input hashes tx i prev_out precomputed := by
  unfold WalletKey.sign_input WalletKey.key_hash_witness
  simp only [hsame.signature_hash, hsame.witness_v0_signature_hash, hsame.taproot_signature_hash]

theorem Wallet.sign_input_congr (wallet : Wallet) {tx other : Transaction} (hsame : SameOutline tx other) (i : Nat)
    (prev_out : TxOut) :
    wallet.sign_input hashes other i prev_out precomputed = wallet.sign_input hashes tx i prev_out precomputed := by
  unfold Wallet.sign_input
  simp only [WalletKey.sign_input_congr _ hsame]

theorem Wallet.sign_input_keeps {tx : Transaction} {i : Nat} {prev_out : TxOut} {edit : TxIn → TxIn}
    (hedit : wallet.sign_input hashes tx i prev_out precomputed = .ok (some edit)) : Keeps edit := by
  obtain ⟨wk, -, hedit⟩ := wallet.sign_input_eq_ok hashes hedit
  exact wk.sign_input_keeps hedit

theorem Wallet.sign_input_returns {tx : Transaction} {i : Nat} (hi : i < tx.vin.length) (prev_out : TxOut) :
    ∃ edit, wallet.sign_input hashes tx i prev_out precomputed = .ok edit := by
  have hwitness : ∀ script_code, ∃ sighash, witness_v0_signature_hash hashes script_code tx i SIGHASH_ALL prev_out.value
      precomputed = .ok sighash := by
    intro script_code
    unfold witness_v0_signature_hash
    rw [List.getElem?_eq_getElem hi]
    exact ⟨_, rfl⟩
  have htaproot : ∃ sighash, taproot_signature_hash hashes tx i 0 precomputed 0 none none none = .ok sighash := ⟨_, rfl⟩
  unfold Wallet.sign_input
  split
  · exact ⟨_, rfl⟩
  · next wk _ =>
    unfold WalletKey.sign_input WalletKey.key_hash_witness
    obtain ⟨sighash, hsighash⟩ := hwitness (build_p2pkh (hashes.hash160 wk.pubkey))
    obtain ⟨tapped, htapped⟩ := htaproot
    dsimp only
    rw [hsighash, htapped]
    split <;> exact ⟨_, rfl⟩

/-- A run of the loop: the inputs before it are as they were, and each input it comes to is
    edited as in the transaction it started from. -/
theorem Wallet.sign_inputs_spec (wallet : Wallet) {rest : List TxOut} : ∀ {i signed : Nat} {tx : Transaction},
    i + rest.length ≤ tx.vin.length →
    ∃ result count, wallet.sign_inputs hashes precomputed i rest tx signed = .ok (result, count) ∧
      SameOutline tx result ∧ (∀ k < i, result.vin[k]? = tx.vin[k]?) ∧
      ∀ j prev_out edit, rest[j]? = some prev_out →
        wallet.sign_input hashes tx (i + j) prev_out precomputed = .ok edit →
          result.vin[i + j]? = tx.vin[i + j]?.map (edit.getD id) := by
  induction rest with
  | nil =>
    intro i signed tx _
    exact ⟨tx, signed, rfl, .refl tx, fun _ _ => rfl, nofun⟩
  | cons prev_out rest ih =>
    intro i signed tx hlength
    rw [List.length_cons] at hlength
    have hreturns : ∃ edit, wallet.sign_input hashes tx i prev_out precomputed = .ok edit :=
      wallet.sign_input_returns (by omega) prev_out
    obtain ⟨edited, hedited⟩ := hreturns
    -- the transaction after this input
    obtain ⟨next, next_signed, hstep, hsame, hbefore, hat⟩ : ∃ next next_signed,
        wallet.sign_inputs hashes precomputed i (prev_out :: rest) tx signed =
          wallet.sign_inputs hashes precomputed (i + 1) rest next next_signed ∧
        SameOutline tx next ∧ (∀ k, k ≠ i → next.vin[k]? = tx.vin[k]?) ∧
        next.vin[i]? = tx.vin[i]?.map (edited.getD id) := by
      cases edited with
      | none =>
        refine ⟨tx, signed, ?_, .refl tx, fun _ _ => rfl, (congrFun Option.map_id _).symm⟩
        rw [Wallet.sign_inputs, hedited]
        rfl
      | some edit =>
        refine ⟨{ tx with vin := tx.vin.modify i edit }, signed + 1, ?_,
          sameOutline_modify (Wallet.sign_input_keeps hedited) tx i, fun k hk => ?_, ?_⟩
        · rw [Wallet.sign_inputs, hedited]
          rfl
        · change (tx.vin.modify i edit)[k]? = _
          exact List.getElem?_modify_ne _ _ hk.symm
        · change (tx.vin.modify i edit)[i]? = _
          rw [List.getElem?_modify_eq]
          rfl
    obtain ⟨result, count, hrun, hresult, hkept, hmade⟩ := @ih (i + 1) next_signed next (by rw [hsame.length]; omega)
    refine ⟨result, count, hstep.trans hrun, hsame.trans hresult, fun k hk => ?_, fun j prev_out' edit hget hedit => ?_⟩
    · rw [hkept k (by omega), hbefore k (by omega)]
    · cases j with
      | zero =>
        cases hget
        cases hedited.symm.trans hedit
        rw [Nat.add_zero, hkept i (Nat.lt_succ_self i), hat]
      | succ j =>
        have hindex : i + 1 + j = i + (j + 1) := by omega
        rw [← hindex] at hedit ⊢
        rw [hmade j prev_out' edit hget (by rw [wallet.sign_input_congr hsame]; exact hedit), hbefore _ (by omega)]

theorem Wallet.sign_transaction_spec (wallet : Wallet) {tx : Transaction} {spent_outputs : List TxOut}
    (hlength : tx.vin.length = spent_outputs.length) :
    ∃ result count, wallet.sign_transaction hashes tx spent_outputs = .ok (result, count) ∧ SameOutline tx result ∧
      ∀ i prev_out edit, spent_outputs[i]? = some prev_out →
        wallet.sign_input hashes tx i prev_out (.new hashes tx spent_outputs) = .ok edit →
          result.vin[i]? = tx.vin[i]?.map (edit.getD id) := by
  obtain ⟨result, count, hrun, hsame, -, hmade⟩ := @Wallet.sign_inputs_spec hashes (.new hashes tx spent_outputs) wallet
    spent_outputs 0 0 tx (by omega)
  refine ⟨result, count, ?_, hsame, fun i prev_out edit hget hedit => ?_⟩
  · rw [Wallet.sign_transaction, if_pos hlength]
    exact hrun
  · have hinput := hmade i prev_out edit hget (by rw [Nat.zero_add]; exact hedit)
    rwa [Nat.zero_add] at hinput

end qubitcoin.wallet
