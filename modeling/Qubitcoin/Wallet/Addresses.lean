import Qubitcoin.Script.Templates
import Qubitcoin.Wallet.Tracking

/-! `qubitcoin-wallet/wallet.rs`: the addresses of a wallet, and the keys behind them. -/

open qubitcoin primitives script transaction sighash

namespace qubitcoin.wallet

/-- A private key, with the bytes of its public key and those of its x-only key. -/
structure Key where
  sign : Uint256 → Option (List UInt8)
  sign_schnorr : Uint256 → Option (List UInt8)
  pubkey : List UInt8
  x_only : List UInt8

def Key.wallet_key (self : Key) (descriptor_type : DescriptorType) : WalletKey where
  sign := self.sign
  sign_schnorr := self.sign_schnorr
  pubkey := self.pubkey
  descriptor_type

/-- A wallet with the type of the addresses it makes. -/
structure DescriptorWallet extends Wallet where
  descriptor_type : DescriptorType

def DescriptorWallet.new (descriptor_type : DescriptorType) : DescriptorWallet where
  keys := []
  addresses := []
  change_addresses := []
  descriptor_type

variable (hashes : Hashes)

def DescriptorType.script_pubkey (self : DescriptorType) (key : Key) : Script :=
  match self with
  | .Pkh => build_p2pkh (hashes.hash160 key.pubkey)
  | .Wpkh => build_p2wpkh (hashes.hash160 key.pubkey)
  | .ShWpkh =>
    let inner := build_p2wpkh (hashes.hash160 key.pubkey)
    let inner_hash := hashes.hash160 inner.data
    build_p2sh inner_hash
  | .Tr => build_p2tr key.x_only

namespace DescriptorWallet

variable (self : DescriptorWallet)

/-- The key is appended to the pool right after, so that it is at the end. -/
def generate_key_and_address (key : Key) : WalletKey × AddressInfo :=
  (key.wallet_key self.descriptor_type, ⟨self.descriptor_type.script_pubkey hashes key, self.keys.length⟩)

def get_new_address (key : Key) : DescriptorWallet :=
  let (wk, addr_info) := self.generate_key_and_address hashes key
  { self with keys := self.keys ++ [wk], addresses := self.addresses ++ [addr_info] }

def get_change_address (key : Key) : DescriptorWallet :=
  let (wk, addr_info) := self.generate_key_and_address hashes key
  { self with keys := self.keys ++ [wk], change_addresses := self.change_addresses ++ [addr_info] }

end DescriptorWallet

/-- The wallets that come from making addresses, in any order, for keys of a kind. -/
inductive Grown (good : Key → Prop) : DescriptorWallet → Prop
  | new (descriptor_type : DescriptorType) : Grown good (.new descriptor_type)
  | get_new_address {wallet : DescriptorWallet} {key : Key} (hwallet : Grown good wallet) (hkey : good key) :
    Grown good (wallet.get_new_address hashes key)
  | get_change_address {wallet : DescriptorWallet} {key : Key} (hwallet : Grown good wallet) (hkey : good key) :
    Grown good (wallet.get_change_address hashes key)

variable {hashes} {good : Key → Prop}

/-- The key that an address points to is in the pool, and the script is the key's. -/
def AddressInfo.Matches (hashes : Hashes) (good : Key → Prop) (keys : List WalletKey) (self : AddressInfo) : Prop :=
  ∃ key descriptor_type, good key ∧ keys[self.key_index]? = some (key.wallet_key descriptor_type) ∧
    self.script_pubkey = descriptor_type.script_pubkey hashes key

/-- Every address matches a key. -/
def Wallet.Matched (hashes : Hashes) (good : Key → Prop) (self : Wallet) : Prop :=
  ∀ addr ∈ self.addresses ++ self.change_addresses, addr.Matches hashes good self.keys

theorem AddressInfo.Matches.append {keys : List WalletKey} {addr : AddressInfo} (hmatch : addr.Matches hashes good keys)
    (wk : WalletKey) : addr.Matches hashes good (keys ++ [wk]) := by
  obtain ⟨key, descriptor_type, hgood, hkey, hscript⟩ := hmatch
  refine ⟨key, descriptor_type, hgood, ?_, hscript⟩
  rw [List.getElem?_append_left (List.getElem?_eq_some_iff.mp hkey).choose]
  exact hkey

theorem generated_matches (wallet : DescriptorWallet) {key : Key} (hkey : good key) :
    (wallet.generate_key_and_address hashes key).2.Matches hashes good
      (wallet.keys ++ [(wallet.generate_key_and_address hashes key).1]) :=
  ⟨key, wallet.descriptor_type, hkey, List.getElem?_concat_length, rfl⟩

theorem Grown.matched {wallet : DescriptorWallet} (hwallet : Grown hashes good wallet) :
    wallet.toWallet.Matched hashes good := by
  induction hwallet with
  | new => exact nofun
  | @get_new_address wallet key _ hkey ih =>
    intro addr hmem
    rcases List.mem_append.mp hmem with hmem | hmem
    · rcases List.mem_append.mp hmem with hmem | hmem
      · exact (ih addr (List.mem_append_left _ hmem)).append _
      · rw [List.mem_singleton.mp hmem]
        exact generated_matches wallet hkey
    · exact (ih addr (List.mem_append_right _ hmem)).append _
  | @get_change_address wallet key _ hkey ih =>
    intro addr hmem
    rcases List.mem_append.mp hmem with hmem | hmem
    · exact (ih addr (List.mem_append_left _ hmem)).append _
    · rcases List.mem_append.mp hmem with hmem | hmem
      · exact (ih addr (List.mem_append_right _ hmem)).append _
      · rw [List.mem_singleton.mp hmem]
        exact generated_matches wallet hkey

theorem Wallet.Matched.find_key_for_script {wallet : Wallet} (hmatched : wallet.Matched hashes good)
    {script_pubkey : Script} (hmine : (wallet.is_mine script_pubkey).isSome = true) :
    ∃ key descriptor_type, good key ∧ wallet.find_key_for_script script_pubkey = some (key.wallet_key descriptor_type) ∧
      script_pubkey = descriptor_type.script_pubkey hashes key := by
  have hany : ∃ addr ∈ wallet.addresses ++ wallet.change_addresses, (addr.script_pubkey == script_pubkey) = true := by
    unfold Wallet.is_mine at hmine
    split at hmine
    · next hreceiving =>
      obtain ⟨addr, hmem, heq⟩ := List.any_eq_true.mp hreceiving
      exact ⟨addr, List.mem_append_left _ hmem, heq⟩
    · split at hmine
      · next hchange =>
        obtain ⟨addr, hmem, heq⟩ := List.any_eq_true.mp hchange
        exact ⟨addr, List.mem_append_right _ hmem, heq⟩
      · cases hmine
  unfold Wallet.find_key_for_script
  cases hfind : (wallet.addresses ++ wallet.change_addresses).find? fun addr => addr.script_pubkey == script_pubkey with
  | none =>
    obtain ⟨addr, hmem, heq⟩ := hany
    exact absurd heq (List.find?_eq_none.mp hfind addr hmem)
  | some addr =>
    obtain ⟨key, descriptor_type, hgood, hkey, hscript⟩ := hmatched addr (List.mem_of_find?_eq_some hfind)
    have hsame := eq_of_beq (List.find?_some (p := fun addr : AddressInfo => addr.script_pubkey == script_pubkey) hfind)
    exact ⟨key, descriptor_type, hgood, hkey, hsame.symm.trans hscript⟩

end qubitcoin.wallet
