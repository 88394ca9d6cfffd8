import Qubitcoin.Lib.Chunks
import Qubitcoin.Wallet.CoinSelection
import Qubitcoin.Wallet.File
import Qubitcoin.Wallet.Verified

/-! `qubitcoin-wallet/wallet.rs`: a wallet that is saved is loaded again as it was. -/

open qubitcoin codec format primitives script transaction serialize coins sighash

namespace qubitcoin.wallet.file

variable {secp : Secp256k1} (hashes : Hashes)

namespace DerivationPath

def HARDENED : UInt32 := 0x80000000

/-- `m/purpose'/coin'/account'/change/index`. -/
def bip (purpose coin_type account change index : UInt32) : DerivationPath :=
  [purpose ||| HARDENED, coin_type ||| HARDENED, account ||| HARDENED, change, index]

def bip44 : (coin_type account change index : UInt32) → DerivationPath := bip 44

def bip84 : (coin_type account change index : UInt32) → DerivationPath := bip 84

def bip86 : (coin_type account change index : UInt32) → DerivationPath := bip 86

end DerivationPath

def hex_encode (data : List UInt8) : String :=
  String.ofList (data.flatMap fun byte => [(byte.toNat / 16).digitChar, (byte.toNat % 16).digitChar])

/-- A fresh key, for a secret that the generator of random numbers gives. -/
def Key.generate (secret : secp.SecretKey) : Key secp := ⟨secret, true⟩

def Key.signing (self : Key secp) : wallet.Key where
  sign := secp.sign self.inner
  sign_schnorr := secp.sign_schnorr self.inner
  pubkey := self.get_pubkey
  x_only := secp.x_only self.inner

def derivation_path (descriptor_type : DescriptorType) (change_flag index : UInt32) : DerivationPath :=
  match descriptor_type with
  | .Pkh => .bip44 0 0 change_flag index
  | .Wpkh => .bip84 0 0 change_flag index
  | .ShWpkh => .bip84 0 0 change_flag index
  | .Tr => .bip86 0 0 change_flag index

namespace Wallet

variable (self : Wallet secp)

/-- The wallet as signing and tracking see it. -/
def view : TrackingWallet where
  keys := self.keys.map fun wk => wk.key.signing.wallet_key wk.descriptor_type
  addresses := self.addresses.map fun addr => ⟨addr.script_pubkey, addr.key_index⟩
  change_addresses := self.change_addresses.map fun addr => ⟨addr.script_pubkey, addr.key_index⟩
  transactions := self.transactions
  unspent := self.unspent

/-- The key is appended to the pool right after, so that it is at the end. -/
def generate_key_and_address (secret : secp.SecretKey) (index : Nat) (is_change : Bool) :
    WalletKey secp × AddressInfo :=
  let key := Key.generate secret
  let pubkey := key.get_pubkey
  let change_flag : UInt32 := if is_change then 1 else 0
  let path := derivation_path self.descriptor_type change_flag (UInt32.ofNat index)
  let script_pubkey := self.descriptor_type.script_pubkey hashes key.signing
  (⟨key, pubkey, path, self.descriptor_type⟩,
    ⟨hex_encode script_pubkey.data, script_pubkey, self.keys.length, is_change⟩)

def get_new_address (secret : secp.SecretKey) : AddressInfo × Wallet secp :=
  let (wk, addr_info) := self.generate_key_and_address hashes secret self.next_key_index false
  (addr_info, { self with
    next_key_index := self.next_key_index + 1
    keys := self.keys ++ [wk]
    addresses := self.addresses ++ [addr_info] })

def get_change_address (secret : secp.SecretKey) : AddressInfo × Wallet secp :=
  let (wk, addr_info) := self.generate_key_and_address hashes secret self.next_change_index true
  (addr_info, { self with
    next_change_index := self.next_change_index + 1
    keys := self.keys ++ [wk]
    change_addresses := self.change_addresses ++ [addr_info] })

def add_transaction (tx : Transaction) (height : Option Int) (now : Nat) : Wallet secp :=
  let tracked := self.view.add_transaction tx height now
  { self with transactions := tracked.transactions, unspent := tracked.unspent }

def is_mine (script_pubkey : Script) : Option Bool := self.view.is_mine script_pubkey

/-- The key of the first address, receiving or change, that has the script. -/
def find_key_for_script (script_pubkey : Script) : Option (WalletKey secp) :=
  match (self.addresses ++ self.change_addresses).find? (fun addr => addr.script_pubkey == script_pubkey) with
  | some addr => self.keys[addr.key_index]?
  | none => none

/-- The unspent outputs, in the order in which the map gives them out. -/
def list_unspent (order : List OutPoint) : List WalletUtxo := order.filterMap self.unspent.lookup

def get_balance (order : List OutPoint) : Except Panic Amount :=
  (self.list_unspent order).foldlM (fun acc utxo => coin_selection.exact_at .Amount (acc + utxo.tx_out.value)) 0

end Wallet

/-- The wallets that come from making addresses and recording transactions. Values are those of the
    code's type, and heights are not negative. -/
inductive Reached : Wallet secp → Prop
  | new (name : String) (descriptor_type : DescriptorType) : Reached (.new secp name descriptor_type)
  | get_new_address {wallet : Wallet secp} (secret : secp.SecretKey) (hwallet : Reached wallet) :
    Reached (wallet.get_new_address hashes secret).2
  | get_change_address {wallet : Wallet secp} (secret : secp.SecretKey) (hwallet : Reached wallet) :
    Reached (wallet.get_change_address hashes secret).2
  | add_transaction {wallet : Wallet secp} (tx : Transaction) (height : Option Int) (now : Nat) (hwallet : Reached wallet)
    (hvalues : ∀ output ∈ tx.vout, IntType.i64.fits output.value)
    (hheight : ∀ h, height = some h → 0 ≤ h ∧ IntType.i32.fits h) : Reached (wallet.add_transaction tx height now)

/-- An unspent output that the file can hold. -/
structure Stored (outpoint : OutPoint) (utxo : WalletUtxo) : Prop where
  outpoint : utxo.outpoint = outpoint
  value : IntType.i64.fits utxo.tx_out.value
  height : ∀ h, utxo.height = some h → 0 ≤ h ∧ IntType.i32.fits h

structure Wallet.Consistent (saved : Wallet secp) : Prop where
  next_key_index : saved.next_key_index = saved.addresses.length
  next_change_index : saved.next_change_index = saved.change_addresses.length
  keys : saved.keys.length = saved.addresses.length + saved.change_addresses.length
  pubkeys : ∀ wk ∈ saved.keys, wk.pubkey = wk.key.get_pubkey ∧ wk.path.length = 5
  key_indices : ∀ addr ∈ saved.addresses ++ saved.change_addresses, addr.key_index < saved.keys.length
  unspent : ∀ outpoint utxo, saved.unspent.lookup outpoint = some utxo → Stored outpoint utxo

variable {hashes}

theorem stored_of_add_outputs {wallet : wallet.Wallet} {txid : Txid} {height : Option Int} {first : Nat}
    {outputs : List TxOut} {unspent : HashMap OutPoint WalletUtxo}
    (hvalues : ∀ output ∈ outputs, IntType.i64.fits output.value)
    (hheight : ∀ h, height = some h → 0 ≤ h ∧ IntType.i32.fits h)
    (hunspent : ∀ outpoint utxo, unspent.lookup outpoint = some utxo → Stored outpoint utxo) :
    ∀ outpoint utxo, (wallet.add_outputs txid height first outputs unspent).lookup outpoint = some utxo →
      Stored outpoint utxo := by
  induction outputs generalizing first unspent with
  | nil => exact hunspent
  | cons output outputs ih =>
    obtain ⟨hvalue, hvalues⟩ := List.forall_mem_cons.mp hvalues
    rw [Wallet.add_outputs]
    refine ih hvalues fun outpoint utxo hlookup => ?_
    split at hlookup
    · next is_change _ =>
      by_cases heq : outpoint = ⟨txid, UInt32.ofNat first⟩
      · rw [heq, AList.lookup_insert, Option.some.injEq] at hlookup
        rw [heq, ← hlookup]
        exact ⟨rfl, hvalue, hheight⟩
      · rw [AList.lookup_insert_ne heq] at hlookup
        exact hunspent outpoint utxo hlookup
    · exact hunspent outpoint utxo hlookup

theorem Wallet.Consistent.pubkeys_generate {self : Wallet secp} (hself : self.Consistent) (secret : secp.SecretKey)
    (index : Nat) (is_change : Bool) :
    ∀ wk ∈ self.keys ++ [(self.generate_key_and_address hashes secret index is_change).1],
      wk.pubkey = wk.key.get_pubkey ∧ wk.path.length = 5 := by
  intro wk hwk
  rcases List.mem_append.mp hwk with hold | hnew
  · exact hself.pubkeys wk hold
  · rw [List.mem_singleton.mp hnew]
    refine ⟨rfl, ?_⟩
    unfold generate_key_and_address derivation_path
    cases self.descriptor_type <;> rfl

theorem Reached.consistent {wallet : Wallet secp} (hreached : Reached hashes wallet) : wallet.Consistent := by
  induction hreached with
  | new name descriptor_type =>
    exact ⟨rfl, rfl, rfl, nofun, nofun, fun outpoint utxo hlookup => nomatch hlookup⟩
  | @get_new_address wallet secret _ ih =>
    have hkeys := @Wallet.Consistent.pubkeys_generate _ hashes wallet ih secret wallet.next_key_index false
    refine ⟨?_, ih.next_change_index, ?_, hkeys, fun addr haddr => ?_, ih.unspent⟩
    · change wallet.next_key_index + 1 = (wallet.addresses ++ [_]).length
      rw [List.length_append, ih.next_key_index, List.length_singleton]
    · change (wallet.keys ++ [_]).length = (wallet.addresses ++ [_]).length + wallet.change_addresses.length
      rw [List.length_append, List.length_append, ih.keys, List.length_singleton, List.length_singleton]
      omega
    · change addr.key_index < (wallet.keys ++ [_]).length
      rw [List.length_append, List.length_singleton]
      rcases List.mem_append.mp haddr with hreceiving | hchange
      · rcases List.mem_append.mp hreceiving with hold | hnew
        · exact Nat.lt_succ_of_lt (ih.key_indices addr (List.mem_append_left _ hold))
        · rw [List.mem_singleton.mp hnew]
          exact Nat.lt_succ_self _
      · exact Nat.lt_succ_of_lt (ih.key_indices addr (List.mem_append_right _ hchange))
  | @get_change_address wallet secret _ ih =>
    have hkeys := @Wallet.Consistent.pubkeys_generate _ hashes wallet ih secret wallet.next_change_index true
    refine ⟨ih.next_key_index, ?_, ?_, hkeys, fun addr haddr => ?_, ih.unspent⟩
    · change wallet.next_change_index + 1 = (wallet.change_addresses ++ [_]).length
      rw [List.length_append, ih.next_change_index, List.length_singleton]
    · change (wallet.keys ++ [_]).length = wallet.addresses.length + (wallet.change_addresses ++ [_]).length
      rw [List.length_append, List.length_append, ih.keys, List.length_singleton, List.length_singleton]
      omega
    · change addr.key_index < (wallet.keys ++ [_]).length
      rw [List.length_append, List.length_singleton]
      rcases List.mem_append.mp haddr with hreceiving | hchange
      · exact Nat.lt_succ_of_lt (ih.key_indices addr (List.mem_append_left _ hreceiving))
      · rcases List.mem_append.mp hchange with hold | hnew
        · exact Nat.lt_succ_of_lt (ih.key_indices addr (List.mem_append_right _ hold))
        · rw [List.mem_singleton.mp hnew]
          exact Nat.lt_succ_self _
  | @add_transaction wallet tx height now _ hvalues hheight ih =>
    refine ⟨ih.next_key_index, ih.next_change_index, ih.keys, ih.pubkeys, ih.key_indices, ?_⟩
    refine stored_of_add_outputs hvalues hheight fun outpoint utxo hlookup => ?_
    exact ih.unspent outpoint utxo (lookup_foldl_erase hlookup)

/-- The library gives the 32 bytes of a secret out, and takes them for the same secret. -/
structure Secp256k1.Lawful (secp : Secp256k1) : Prop where
  length_secret_bytes : ∀ secret, (secp.secret_bytes secret).length = 32
  from_slice_secret_bytes : ∀ secret, secp.from_slice (secp.secret_bytes secret) = .ok secret

/-- The wallet is in memory, where no allocation takes more than `ISIZE_MAX` bytes and lengths are of
    64 bits. -/
structure Wallet.InMemory (layout : Layout) (held : Wallet secp) : Prop where
  name : (utf8.bytes held.name).length ≤ ISIZE_MAX
  keys : layout.wallet_key * held.keys.length ≤ ISIZE_MAX
  addresses : layout.address_info * held.addresses.length ≤ ISIZE_MAX
  change_addresses : layout.address_info * held.change_addresses.length ≤ ISIZE_MAX
  scripts : ∀ addr ∈ held.addresses ++ held.change_addresses,
    (utf8.bytes addr.address).length ≤ ISIZE_MAX ∧ addr.script_pubkey.data.length ≤ ISIZE_MAX
  unspent : held.unspent.keys.length < 2 ^ 64 ∧ layout.unspent held.unspent.keys.length ≤ ISIZE_MAX
  outputs : ∀ outpoint utxo, held.unspent.lookup outpoint = some utxo →
    utxo.tx_out.script_pubkey.data.length ≤ ISIZE_MAX

theorem compactSize_write {n : Nat} (hfit : n < 2 ^ 64) : CompactSize n (write_compact_size_io n) := by
  unfold write_compact_size_io CompactSize
  split
  · next hsmall => exact .inl ⟨hsmall, rfl⟩
  · split
    · next hsmall => exact .inr (.inl ⟨Nat.lt_succ_of_le hsmall, rfl⟩)
    · split
      · next hsmall => exact .inr (.inr (.inl ⟨Nat.lt_succ_of_le hsmall, rfl⟩))
      · exact .inr (.inr (.inr ⟨hfit, rfl⟩))

theorem bytesSpelled_write {data : List UInt8} (hfit : data.length ≤ ISIZE_MAX) :
    BytesSpelled data (write_compact_bytes data) :=
  ⟨_, ⟨compactSize_write (Nat.lt_of_le_of_lt hfit (by decide)), hfit⟩, rfl⟩

theorem flagSpelled_write (flag : Bool) : FlagSpelled flag (write_flag flag) := by
  refine ⟨if flag then 1 else 0, ?_, rfl⟩
  cases flag <;> rfl

theorem listSpelled_write {A : Type} {bytes : Nat → Nat} {spelled : A → List UInt8 → Prop} {write : A → List UInt8}
    {items : List A} (hitems : ∀ item ∈ items, spelled item (write item)) (hcount : items.length < 2 ^ 64)
    (hfit : bytes items.length ≤ ISIZE_MAX) : ListSpelled bytes spelled items (write_list write items) := by
  refine ⟨_, _, ⟨compactSize_write hcount, hfit⟩, ⟨items.map write, ?_, rfl⟩, rfl⟩
  exact List.forall₂_map_right_iff.mpr (List.forall₂_same.mpr hitems)

theorem addressSpelled_write {addr : AddressInfo} (hindex : addr.key_index < 2 ^ 32)
    (haddress : (utf8.bytes addr.address).length ≤ ISIZE_MAX) (hscript : addr.script_pubkey.data.length ≤ ISIZE_MAX) :
    AddressSpelled addr (write_address_info addr) :=
  ⟨_, _, _, bytesSpelled_write haddress, bytesSpelled_write hscript, hindex, flagSpelled_write _, rfl⟩

theorem keySpelled_write (hlawful : secp.Lawful) {wk : WalletKey secp} (hpubkey : wk.pubkey = wk.key.get_pubkey)
    (hpath : wk.path.length = 5) : KeySpelled secp wk (write_key wk) := by
  refine ⟨_, _, ⟨_, _, hlawful.length_secret_bytes wk.key.inner, ⟨wk.key.compressed, flagSpelled_write _, ?_⟩, rfl⟩, hpubkey,
    listSpelled_write (fun _ _ => rfl) ?_ ?_, ?_⟩
  · unfold Key.new
    rw [hlawful.from_slice_secret_bytes]
    rfl
  · rw [hpath]
    decide
  · rw [hpath]
    decide
  · unfold write_key write_list
    simp only [List.append_assoc]

theorem utxoSpelled_write {outpoint : OutPoint} {utxo : WalletUtxo} (hstored : Stored outpoint utxo)
    (hscript : utxo.tx_out.script_pubkey.data.length ≤ ISIZE_MAX) : UtxoSpelled utxo (write_utxo utxo) := by
  refine ⟨_, _, _, hstored.value, bytesSpelled_write hscript, ⟨as_u32 (utxo.height.getD (-1)), ?_, rfl⟩,
    flagSpelled_write _, rfl⟩
  cases hheight : utxo.height with
  | none => rfl
  | some h =>
    obtain ⟨hpositive, hfits⟩ := hstored.height h hheight
    rw [Option.getD_some, as_i32_as_u32 hfits, if_neg (Int.not_lt.mpr hpositive)]

/-- All but the transactions is the same. -/
structure Restores (loaded saved : Wallet secp) : Prop where
  name : loaded.name = saved.name
  descriptor_type : loaded.descriptor_type = saved.descriptor_type
  next_key_index : loaded.next_key_index = saved.next_key_index
  next_change_index : loaded.next_change_index = saved.next_change_index
  keys : loaded.keys = saved.keys
  addresses : loaded.addresses = saved.addresses
  change_addresses : loaded.change_addresses = saved.change_addresses
  unspent : ∀ outpoint, loaded.unspent.lookup outpoint = saved.unspent.lookup outpoint

theorem outpoints_listed {unspent : HashMap OutPoint WalletUtxo}
    (hstored : ∀ outpoint utxo, unspent.lookup outpoint = some utxo → Stored outpoint utxo) {order : List OutPoint}
    (horder : ∀ outpoint ∈ order, outpoint ∈ unspent) :
    (order.filterMap unspent.lookup).map WalletUtxo.outpoint = order := by
  induction order with
  | nil => rfl
  | cons outpoint order ih =>
    obtain ⟨hmem, hrest⟩ := List.forall_mem_cons.mp horder
    obtain ⟨utxo, hlookup⟩ := Option.isSome_iff_exists.mp (AList.lookup_isSome.mpr hmem)
    simp only [List.filterMap_cons, hlookup]
    rw [List.map_cons, ih hrest, (hstored outpoint utxo hlookup).outpoint]

theorem lookup_unspent_of {unspent : HashMap OutPoint WalletUtxo}
    (hstored : ∀ outpoint utxo, unspent.lookup outpoint = some utxo → Stored outpoint utxo) {order : List OutPoint}
    (horder : order.Perm unspent.keys) (outpoint : OutPoint) :
    (unspent_of (order.filterMap unspent.lookup)).lookup outpoint = unspent.lookup outpoint := by
  have hlisted := outpoints_listed hstored fun outpoint hmem => AList.mem_keys.mpr (horder.mem_iff.mp hmem)
  have hfill : unspent_of (order.filterMap unspent.lookup) =
      chunks.fill ((order.filterMap unspent.lookup).map fun utxo => (utxo.outpoint, utxo)) := by
    unfold unspent_of chunks.fill
    rw [List.foldl_map]
  have hnodup : (((order.filterMap unspent.lookup).map fun utxo => (utxo.outpoint, utxo)).map Prod.fst).Nodup := by
    rw [List.map_map]
    change ((order.filterMap unspent.lookup).map WalletUtxo.outpoint).Nodup
    rw [hlisted, horder.nodup_iff]
    exact unspent.keys_nodup
  apply Option.ext
  intro utxo
  rw [hfill, chunks.lookup_fill hnodup, List.mem_map]
  constructor
  · rintro ⟨found, hfound, heq⟩
    obtain ⟨rfl, rfl⟩ := Prod.mk.inj heq
    obtain ⟨listed, -, hlookup⟩ := List.mem_filterMap.mp hfound
    rwa [(hstored listed found hlookup).outpoint]
  · intro hlookup
    refine ⟨utxo, List.mem_filterMap.mpr ⟨outpoint, ?_, hlookup⟩, ?_⟩
    · rw [horder.mem_iff, ← AList.mem_keys]
      exact AList.lookup_isSome.mp (Option.isSome_iff_exists.mpr ⟨utxo, hlookup⟩)
    · rw [(hstored outpoint utxo hlookup).outpoint]

def Wallet.kept (self : Wallet secp) (order : List OutPoint) : Wallet secp :=
  { self with transactions := ∅, unspent := unspent_of (order.filterMap self.unspent.lookup) }

theorem walletSpelled_save_to_bytes {layout : Layout} {saved : Wallet secp} (hlawful : secp.Lawful)
    (hconsistent : saved.Consistent) (hcount : saved.addresses.length + saved.change_addresses.length < 2 ^ 32)
    (hmemory : saved.InMemory layout) {order : List OutPoint} (horder : order.Perm saved.unspent.keys) :
    WalletSpelled secp layout (saved.kept order) (saved.save_to_bytes order) := by
  have hkeys_lt : saved.keys.length < 2 ^ 32 := by rw [hconsistent.keys]; exact hcount
  have haddress : ∀ addr ∈ saved.addresses ++ saved.change_addresses, AddressSpelled addr (write_address_info addr) := by
    intro addr haddr
    obtain ⟨hstring, hscript⟩ := hmemory.scripts addr haddr
    exact addressSpelled_write (Nat.lt_trans (hconsistent.key_indices addr haddr) hkeys_lt) hstring hscript
  have hkeys : ListSpelled (layout.wallet_key * ·) (KeySpelled secp) saved.keys (write_list write_key saved.keys) :=
    listSpelled_write (fun wk hwk => keySpelled_write hlawful (hconsistent.pubkeys wk hwk).1 (hconsistent.pubkeys wk hwk).2)
      (by omega) hmemory.keys
  have haddresses : ListSpelled (layout.address_info * ·) AddressSpelled saved.addresses
      (write_list write_address_info saved.addresses) :=
    listSpelled_write (fun addr haddr => haddress addr (List.mem_append_left _ haddr)) (by omega) hmemory.addresses
  have hchange : ListSpelled (layout.address_info * ·) AddressSpelled saved.change_addresses
      (write_list write_address_info saved.change_addresses) :=
    listSpelled_write (fun addr haddr => haddress addr (List.mem_append_right _ haddr)) (by omega) hmemory.change_addresses
  have hlength : (order.filterMap saved.unspent.lookup).length = saved.unspent.keys.length := by
    rw [← horder.length_eq, ← List.length_map WalletUtxo.outpoint,
      outpoints_listed hconsistent.unspent fun outpoint hmem => AList.mem_keys.mpr (horder.mem_iff.mp hmem)]
  have hunspent : ListSpelled layout.unspent UtxoSpelled (order.filterMap saved.unspent.lookup)
      (write_list write_utxo (order.filterMap saved.unspent.lookup)) := by
    refine listSpelled_write (fun utxo hutxo => ?_) (hlength ▸ hmemory.unspent.1) (hlength ▸ hmemory.unspent.2)
    obtain ⟨outpoint, -, hlookup⟩ := List.mem_filterMap.mp hutxo
    exact utxoSpelled_write (hconsistent.unspent outpoint utxo hlookup) (hmemory.outputs outpoint utxo hlookup)
  have hindices : saved.next_key_index < 2 ^ 32 ∧ saved.next_change_index < 2 ^ 32 := by
    rw [hconsistent.next_key_index, hconsistent.next_change_index]
    omega
  refine ⟨_, _, _, _, _, _, ⟨_, bytesSpelled_write hmemory.name, hindices.1, hindices.2, rfl⟩, hkeys, haddresses, hchange,
    hunspent, rfl, rfl, ?_⟩
  rw [Wallet.save_to_bytes]
  rfl

/-- A wallet that has made addresses and recorded transactions is loaded as it was saved, in whatever
    order the map gives out the unspent outputs. -/
theorem restores_load {layout : Layout} {saved : Wallet secp} (hlawful : secp.Lawful) (hreached : Reached hashes saved)
    (hcount : saved.addresses.length + saved.change_addresses.length < 2 ^ 32) (hmemory : saved.InMemory layout)
    {order : List OutPoint} (horder : order.Perm saved.unspent.keys) :
    ∃ loaded, load_from_bytes secp layout (saved.save_to_bytes order) = .ok loaded ∧ Restores loaded saved := by
  have hconsistent := hreached.consistent
  have hspelled := walletSpelled_save_to_bytes hlawful hconsistent hcount hmemory horder
  have hread : (read_wallet secp layout).run (saved.save_to_bytes order) = .ok (saved.kept order, []) :=
    (describes_read_wallet layout).run_eq_ok.mpr ⟨_, hspelled, (List.append_nil _).symm⟩
  refine ⟨saved.kept order, ?_, rfl, rfl, rfl, rfl, rfl, rfl, rfl, lookup_unspent_of hconsistent.unspent horder⟩
  rw [load_from_bytes, hread]
  rfl

section

variable {loaded saved : Wallet secp} (hrestores : Restores loaded saved)

include hrestores

theorem Restores.is_mine (script_pubkey : Script) : loaded.is_mine script_pubkey = saved.is_mine script_pubkey := by
  unfold Wallet.is_mine wallet.Wallet.is_mine Wallet.view
  rw [hrestores.addresses, hrestores.change_addresses]

theorem Restores.find_key_for_script (script_pubkey : Script) :
    loaded.find_key_for_script script_pubkey = saved.find_key_for_script script_pubkey := by
  unfold Wallet.find_key_for_script
  rw [hrestores.addresses, hrestores.change_addresses, hrestores.keys]

theorem Restores.list_unspent (order : List OutPoint) : loaded.list_unspent order = saved.list_unspent order :=
  List.filterMap_congr fun outpoint _ => hrestores.unspent outpoint

theorem Restores.get_balance (order : List OutPoint) : loaded.get_balance order = saved.get_balance order := by
  unfold Wallet.get_balance
  rw [hrestores.list_unspent]

end

/-- What a saved wallet gives back when it is loaded: itself without its transactions, the same
    answers to whose a script is and which key it has, and the same balance. -/
theorem load_save {layout : Layout} {saved : Wallet secp} (hlawful : secp.Lawful) (hreached : Reached hashes saved)
    (hcount : saved.addresses.length + saved.change_addresses.length < 2 ^ 32) (hmemory : saved.InMemory layout)
    {order : List OutPoint} (horder : order.Perm saved.unspent.keys) :
    ∃ loaded, load_from_bytes secp layout (saved.save_to_bytes order) = .ok loaded ∧ Restores loaded saved ∧
      (∀ script_pubkey, loaded.is_mine script_pubkey = saved.is_mine script_pubkey) ∧
      (∀ script_pubkey, loaded.find_key_for_script script_pubkey = saved.find_key_for_script script_pubkey) ∧
      ∀ order, loaded.get_balance order = saved.get_balance order := by
  obtain ⟨loaded, hload, hrestores⟩ := restores_load hlawful hreached hcount hmemory horder
  exact ⟨loaded, hload, hrestores, hrestores.is_mine, hrestores.find_key_for_script, hrestores.get_balance⟩

/-- The calls of the crate for the key one. -/
def generator_library : Secp256k1 where
  SecretKey := { secret : Nat // 0 < secret ∧ secret < sign.GROUP_ORDER }
  from_slice data :=
    if h : data.length = 32 ∧ 0 < der.value data ∧ der.value data < sign.GROUP_ORDER then .ok ⟨der.value data, h.2⟩
    else .error "malformed or out-of-range secret key"
  secret_bytes secret := der.bytes 32 secret.val
  serialize_public_key _ compressed :=
    if compressed then 0x02 :: der.bytes 32 generator.1 else 0x04 :: (der.bytes 32 generator.1 ++ der.bytes 32 generator.2)
  x_only _ := der.bytes 32 generator.1
  sign _ := generator_key.sign
  sign_schnorr _ := generator_key.sign_schnorr

theorem generator_library_lawful : generator_library.Lawful where
  length_secret_bytes secret := der.length_bytes 32 secret.val
  from_slice_secret_bytes := by
    rintro ⟨secret, hpositive, hlt⟩
    have hvalue : der.value (der.bytes 32 secret) = secret := der.value_bytes (sign.lt_of_lt_group_order hlt)
    unfold generator_library
    dsimp only
    rw [dif_pos ⟨der.length_bytes 32 secret, by rw [hvalue]; exact ⟨hpositive, hlt⟩⟩]
    simp only [hvalue]

/-- One address and a change address, both for the key one, and a transaction that pays to them. -/
def paid_wallet : Wallet generator_library :=
  let addressed := (Wallet.new generator_library "savings" .Wpkh).get_new_address generator_secp.hashes ⟨1, by decide⟩
  let changed := addressed.2.get_change_address generator_secp.hashes ⟨1, by decide⟩
  changed.2.add_transaction (.new crypto.sha256d 2 [⟨⟨1, 0⟩, .new, SEQUENCE_FINAL, .new⟩]
    [⟨50000, build_p2wpkh generator_hash⟩] 0) (some 7) 1700000000

theorem paid_wallet_reached : Reached generator_secp.hashes paid_wallet :=
  .add_transaction _ _ _ (.get_change_address _ (.get_new_address _ (.new "savings" .Wpkh))) (by decide)
    (by rintro h ⟨⟩; decide)

/-- The sizes of the entries on a machine of 64 bits. -/
def machine_layout : Layout := ⟨176, 96, fun n => 256 * n + 16⟩

theorem paid_wallet_in_memory : paid_wallet.InMemory machine_layout where
  name := by decide +kernel
  keys := by decide +kernel
  addresses := by decide +kernel
  change_addresses := by decide +kernel
  scripts := by decide +kernel
  unspent := by decide +kernel
  outputs outpoint utxo hlookup := by
    have hall : ∀ entry ∈ paid_wallet.unspent.entries, entry.2.tx_out.script_pubkey.data.length ≤ ISIZE_MAX := by decide +kernel
    exact hall _ (AList.mem_lookup_iff.mp hlookup)

theorem load_save_paid : ∃ loaded, load_from_bytes generator_library machine_layout
      (paid_wallet.save_to_bytes paid_wallet.unspent.keys) = .ok loaded ∧ Restores loaded paid_wallet ∧
      loaded.get_balance paid_wallet.unspent.keys = .ok 50000 := by
  obtain ⟨loaded, hload, hrestores, _, _, hbalance⟩ := load_save generator_library_lawful paid_wallet_reached
    (by decide +kernel) paid_wallet_in_memory (List.Perm.refl _)
  refine ⟨loaded, hload, hrestores, ?_⟩
  rw [hbalance]
  decide +kernel

end qubitcoin.wallet.file
