import Qubitcoin.Coins.Scan
import Qubitcoin.Lib.MapTotal
import Qubitcoin.Storage.BlockFiles

/-! `qubitcoin-storage/wrapper.rs`: typed values over a store of bytes, hidden under a key that the
    store keeps, and the coins database of `coins.rs` over it. The store does not fail. -/

open qubitcoin primitives serialize transaction coins qubitcoin.validation codec

namespace qubitcoin.wrapper

/-- A store and the key under which its values are hidden. -/
structure DbWrapper where
  db : HashMap (List UInt8) (List UInt8)
  obfuscation_key : List UInt8

/-- Open a store. If it has no obfuscation key, it is given a random one. -/
def DbWrapper.new (db : HashMap (List UInt8) (List UInt8)) (obfuscate : Bool) (random : List UInt8) : DbWrapper :=
  if obfuscate then
    match db.lookup OBFUSCATION_KEY_KEY with
    | some key => ⟨db, key⟩
    | none => ⟨kv.write db [.put OBFUSCATION_KEY_KEY random], random⟩
  else ⟨db, []⟩

variable {self : DbWrapper}

def DbWrapper.xor_bytes (self : DbWrapper) (data : List UInt8) : List UInt8 :=
  if self.obfuscation_key.isEmpty then data
  else data.mapIdx fun i byte => byte ^^^ self.obfuscation_key.getD (i % self.obfuscation_key.length) 0

/-- What follows the value in its record is not looked at. -/
def DbWrapper.read {A : Type} (self : DbWrapper) (decode : Decoder A) (key : List UInt8) : Except Error (Option A) :=
  match self.db.lookup key with
  | some raw => (decode.run (self.xor_bytes raw)).map fun result => some result.1
  | none => .ok none

def DbWrapper.serialize_value {A : Type} (self : DbWrapper) (encode : A → Except Panic (List UInt8)) (value : A) :
    Except Panic (List UInt8) :=
  (encode value).map self.xor_bytes

def DbWrapper.write_batch (self : DbWrapper) (batch : List (kv.Op (List UInt8) (List UInt8))) : DbWrapper :=
  { self with db := kv.write self.db batch }

theorem DbWrapper.xor_bytes_xor_bytes (data : List UInt8) : self.xor_bytes (self.xor_bytes data) = data := by
  unfold xor_bytes
  split
  · rfl
  · refine List.ext_getElem (by simp) fun i _ _ => ?_
    rw [List.getElem_mapIdx, List.getElem_mapIdx, UInt8.xor_assoc, UInt8.xor_self, UInt8.xor_zero]

theorem DbWrapper.read_put {A : Type} (decode : Decoder A) (key query bytes : List UInt8) :
    (self.write_batch [.put key (self.xor_bytes bytes)]).read decode query =
      if query = key then (decode.run bytes).map fun result => some result.1 else self.read decode query := by
  have hlookup : (self.write_batch [.put key (self.xor_bytes bytes)]).db.lookup query =
      if query = key then some (self.xor_bytes bytes) else self.db.lookup query := kv.lookup_put _ _ _ _
  by_cases hsame : query = key
  · have hhidden := self.xor_bytes_xor_bytes bytes
    rw [if_pos hsame] at hlookup ⊢
    rw [read, hlookup]
    exact congrArg (fun raw => (decode.run raw).map fun result => some result.1) hhidden
  · rw [if_neg hsame] at hlookup ⊢
    rw [read, hlookup]
    rfl

theorem DbWrapper.read_delete {A : Type} (decode : Decoder A) (key query : List UInt8) :
    (self.write_batch [.delete key]).read decode query =
      if query = key then .ok none else self.read decode query := by
  have hlookup : (self.write_batch [.delete key]).db.lookup query =
      if query = key then none else self.db.lookup query := kv.lookup_delete _ _ _
  by_cases hsame : query = key
  · rw [if_pos hsame] at hlookup ⊢
    rw [read, hlookup]
  · rw [if_neg hsame] at hlookup ⊢
    rw [read, hlookup]
    rfl

end qubitcoin.wrapper

/-! The coins database. -/

open qubitcoin.wrapper

namespace qubitcoin.coins

variable (curve : Secp256k1)

def coin_entry (outpoint : OutPoint) (coin : Coin) : Σ _ : OutPoint, Coin := ⟨outpoint, coin⟩

/-- The database as its records are read. -/
def CoinsViewDB.read_back (self : CoinsViewDB) : CoinsViewDB where
  coins := {
    entries := self.coins.entries.filterMap fun entry => (Coin.read_back curve entry.2).map (coin_entry entry.1)
    nodupKeys := by
      have hsub : (self.coins.entries.filterMap fun entry =>
          (Coin.read_back curve entry.2).map (coin_entry entry.1)).keys.Sublist self.coins.entries.keys := by
        induction self.coins.entries with
        | nil => exact List.Sublist.refl []
        | cons entry rest ih =>
          rw [List.filterMap_cons]
          cases Coin.read_back curve entry.2 with
          | none => exact ih.cons _
          | some coin => exact ih.cons_cons _
      exact hsub.nodup self.coins.nodupKeys }
  best_block := self.best_block

/-- Every coin of the database has a record that keeps it. -/
def CoinsViewDB.Storable (self : CoinsViewDB) : Prop :=
  ∀ outpoint coin, self.coins.lookup outpoint = some coin → Coin.Storable curve coin

variable {curve}

theorem Coin.read_back_eq {coin : Coin} (hstorable : Coin.Storable curve coin) : coin.read_back curve = some coin := by
  obtain ⟨bytes, hencode, hdecode⟩ := hstorable.readsBack
  have hread := hdecode []
  rw [List.append_nil] at hread
  unfold read_back
  rw [hencode]
  dsimp only
  rw [hread]
  rfl

theorem CoinsViewDB.lookup_read_back (self : CoinsViewDB) (outpoint : OutPoint) :
    (self.read_back curve).coins.lookup outpoint = (self.coins.lookup outpoint).bind (Coin.read_back curve) := by
  refine Option.ext fun coin => ?_
  change coin ∈ (self.read_back curve).coins.lookup outpoint ↔ _
  rw [AList.mem_lookup_iff, Option.bind_eq_some_iff]
  change _ ∈ self.coins.entries.filterMap _ ↔ _
  rw [List.mem_filterMap]
  constructor
  · rintro ⟨⟨key, written⟩, hentry, hread⟩
    obtain ⟨read, hread, heq⟩ := Option.map_eq_some_iff.mp hread
    cases heq
    exact ⟨written, AList.mem_lookup_iff.mpr hentry, hread⟩
  · rintro ⟨written, hentry, hread⟩
    exact ⟨⟨outpoint, written⟩, AList.mem_lookup_iff.mp hentry, by rw [hread]; rfl⟩

theorem CoinsViewDB.Storable.read_back {self : CoinsViewDB} (hstorable : self.Storable curve) :
    self.read_back curve = self := by
  have hentries : (self.coins.entries.filterMap fun entry => (Coin.read_back curve entry.2).map (coin_entry entry.1)) =
      self.coins.entries := by
    calc _ = self.coins.entries.filterMap some := List.filterMap_congr fun entry hentry => by
            rw [Coin.read_back_eq (hstorable entry.1 entry.2 (AList.mem_lookup_iff.mpr hentry))]
            rfl
      _ = self.coins.entries := List.filterMap_some
  have hcoins : (self.read_back curve).coins = self.coins := AList.ext hentries
  cases self
  exact congrArg (fun coins => CoinsViewDB.mk coins _) hcoins

end qubitcoin.coins

namespace qubitcoin.coins.stored

def coin_write (db : DbWrapper) : OutPoint × Option Coin → Except Panic (kv.Op (List UInt8) (List UInt8))
  | (outpoint, some coin) => (db.serialize_value Coin.encode coin).map (.put (coin_db_key outpoint))
  | (outpoint, none) => .ok (.delete (coin_db_key outpoint))

/-- The coins and the best block are written in one batch. -/
def batch_write_impl (db : DbWrapper) (entries : List (OutPoint × Option Coin)) (best_block : BlockHash) :
    Except Panic DbWrapper := do
  let batch ← entries.mapM (coin_write db)
  .ok (db.write_batch (batch ++ [.put best_block_db_key (db.xor_bytes (Uint256.data best_block))]))

variable (curve : Secp256k1)

/-- A record that cannot be read is no coin. -/
def get_coin (db : DbWrapper) (outpoint : OutPoint) : Option Coin :=
  match db.read (Coin.decode curve) (coin_db_key outpoint) with
  | .ok (some coin) => if coin.is_spent then none else some coin
  | _ => none

def get_best_block (db : DbWrapper) : BlockHash :=
  match db.read decode_uint256 best_block_db_key with
  | .ok (some hash) => hash
  | _ => 0

/-- The store holds the records of the coins of a map, and its own key. -/
structure Mirrors (db : DbWrapper) (coins : HashMap OutPoint Coin) : Prop where
  reads : ∀ outpoint, (db.read (Coin.decode curve) (coin_db_key outpoint)).toOption.join =
    (coins.lookup outpoint).bind (Coin.read_back curve)
  key : db.db.lookup OBFUSCATION_KEY_KEY = some db.obfuscation_key

/-- The store holds the coins and the best block of a view. -/
structure Holds (db : DbWrapper) (view : CoinsViewDB) : Prop extends Mirrors curve db view.coins where
  best_block : get_best_block db = view.best_block

variable {curve} {db : DbWrapper}

theorem Holds.get_coin_eq {view : CoinsViewDB} (hholds : Holds curve db view) (outpoint : OutPoint) :
    get_coin curve db outpoint = (view.read_back curve).get_coin outpoint := by
  unfold get_coin CoinsViewDB.get_coin
  rw [view.lookup_read_back, ← hholds.reads]
  cases db.read (Coin.decode curve) (coin_db_key outpoint) with
  | error _ => rfl
  | ok coin => cases coin <;> rfl

theorem coin_key_ne (outpoint : OutPoint) : OBFUSCATION_KEY_KEY ≠ coin_db_key outpoint :=
  fun heq => absurd (List.cons.inj heq).1 (by decide)

theorem Mirrors.coin_write {coins : HashMap OutPoint Coin} (hmirrors : Mirrors curve db coins) {outpoint : OutPoint}
    {maybe_coin : Option Coin} (hencodes : ∀ coin, maybe_coin = some coin → ∃ bytes, coin.encode = .ok bytes) :
    ∃ write, coin_write db (outpoint, maybe_coin) = .ok write ∧
      Mirrors curve (db.write_batch [write]) (apply_write coins outpoint maybe_coin) := by
  cases maybe_coin with
  | none =>
    refine ⟨_, rfl, fun query => ?_, ?_⟩
    · rw [DbWrapper.read_delete]
      by_cases hsame : query = outpoint
      · rw [hsame, if_pos rfl, apply_write, AList.lookup_erase]
        rfl
      · rw [if_neg fun heq => hsame (coin_db_key_injective heq), hmirrors.reads, apply_write, AList.lookup_erase_ne hsame]
    · exact (kv.lookup_delete db.db _ _).trans ((if_neg (coin_key_ne outpoint)).trans hmirrors.key)
  | some coin =>
    obtain ⟨bytes, hencode⟩ := hencodes coin rfl
    have hwrite : stored.coin_write db (outpoint, some coin) = .ok (.put (coin_db_key outpoint) (db.xor_bytes bytes)) :=
      congrArg (fun result => (Except.map db.xor_bytes result).map (kv.Op.put (coin_db_key outpoint))) hencode
    refine ⟨_, hwrite, fun query => ?_, ?_⟩
    · rw [DbWrapper.read_put]
      by_cases hsame : query = outpoint
      · rw [hsame, if_pos rfl, apply_write, AList.lookup_insert, Option.bind_some, Coin.read_back, hencode]
        dsimp only
        cases (Coin.decode curve).run bytes <;> rfl
      · rw [if_neg fun heq => hsame (coin_db_key_injective heq), hmirrors.reads, apply_write, AList.lookup_insert_ne hsame]
    · exact (kv.lookup_put db.db _ _ _).trans ((if_neg (coin_key_ne outpoint)).trans hmirrors.key)

theorem Mirrors.coin_writes {coins : HashMap OutPoint Coin} (hmirrors : Mirrors curve db coins)
    {entries : List (OutPoint × Option Coin)}
    (hencodes : ∀ outpoint coin, (outpoint, some coin) ∈ entries → ∃ bytes, coin.encode = .ok bytes) :
    ∃ writes, entries.mapM (stored.coin_write db) = .ok writes ∧
      Mirrors curve (db.write_batch writes) (apply_writes coins entries) := by
  induction entries generalizing db coins with
  | nil => exact ⟨[], rfl, hmirrors⟩
  | cons entry rest ih =>
    obtain ⟨write, hwrite, hfirst⟩ := hmirrors.coin_write fun coin heq =>
      hencodes entry.1 coin (heq ▸ List.mem_cons_self)
    obtain ⟨writes, hwrites, hrest⟩ := ih hfirst fun other coin hmem => hencodes other coin (List.mem_cons_of_mem _ hmem)
    have hwrites : rest.mapM (stored.coin_write db) = .ok writes := hwrites
    refine ⟨write :: writes, ?_, hrest⟩
    rw [List.mapM_cons, hwrite, hwrites]
    rfl

theorem Mirrors.batch_write {view : CoinsViewDB} (hmirrors : Mirrors curve db view.coins)
    {entries : List (OutPoint × Option Coin)}
    (hencodes : ∀ outpoint coin, (outpoint, some coin) ∈ entries → ∃ bytes, coin.encode = .ok bytes)
    (best_block : BlockHash) :
    ∃ after, batch_write_impl db entries best_block = .ok after ∧ Holds curve after (view.batch_write entries best_block) := by
  obtain ⟨writes, hwrites, hcoins⟩ := hmirrors.coin_writes hencodes
  refine ⟨(db.write_batch writes).write_batch
    [.put best_block_db_key ((db.write_batch writes).xor_bytes (Uint256.data best_block))], ?_, ⟨fun outpoint => ?_, ?_⟩, ?_⟩
  · unfold batch_write_impl
    rw [hwrites]
    exact congrArg (fun store => Except.ok (DbWrapper.mk store db.obfuscation_key)) (kv.write_append db.db writes _)
  · have hne : coin_db_key outpoint ≠ best_block_db_key := fun heq => absurd (List.cons.inj heq).1 (by decide)
    rw [DbWrapper.read_put, if_neg hne]
    exact hcoins.reads outpoint
  · have hne : OBFUSCATION_KEY_KEY ≠ best_block_db_key := by decide
    exact (kv.lookup_put _ _ _ _).trans ((if_neg hne).trans hcoins.key)
  · have hread : decode_uint256.run (Uint256.data best_block) = .ok (best_block, []) :=
      exact_decode_uint256.run_eq_ok.mpr ⟨trivial, (List.append_nil _).symm⟩
    unfold get_best_block
    rw [DbWrapper.read_put, if_pos rfl, hread]
    rfl

/-- A call of the node, which opens the store again at each start. -/
inductive Call where
  | batch_write (entries : List (OutPoint × Option Coin)) (best_block : BlockHash)
  | reopen (random : List UInt8)

def Call.apply (db : DbWrapper) : Call → Except Panic DbWrapper
  | .batch_write entries best_block => batch_write_impl db entries best_block
  | .reopen random => .ok (.new db.db true random)

def Call.record (view : CoinsViewDB) : Call → CoinsViewDB
  | .batch_write entries best_block => view.batch_write entries best_block
  | .reopen _ => view

theorem Holds.apply {view : CoinsViewDB} (hholds : Holds curve db view) {call : Call}
    (hencodes : ∀ entries best_block, call = .batch_write entries best_block →
      ∀ outpoint coin, (outpoint, some coin) ∈ entries → ∃ bytes, coin.encode = .ok bytes) :
    ∃ after, call.apply db = .ok after ∧ Holds curve after (call.record view) := by
  cases call with
  | batch_write entries best_block => exact hholds.batch_write (hencodes entries best_block rfl) best_block
  | reopen random =>
    have hopen : DbWrapper.new db.db true random = db := by
      unfold DbWrapper.new
      rw [if_pos rfl, hholds.key]
    exact ⟨db, congrArg Except.ok hopen, hholds⟩

theorem Holds.new (random : List UInt8) : Holds curve (DbWrapper.new ∅ true random) ⟨∅, 0⟩ := by
  have hlookup : ∀ query, query ≠ OBFUSCATION_KEY_KEY →
      (DbWrapper.new ∅ true random).db.lookup query = none := fun query hne =>
    (kv.lookup_put ∅ OBFUSCATION_KEY_KEY query random).trans ((if_neg hne).trans (AList.lookup_empty query))
  refine ⟨⟨fun outpoint => ?_, (kv.lookup_put ∅ OBFUSCATION_KEY_KEY _ random).trans (if_pos rfl)⟩, ?_⟩
  · unfold DbWrapper.read
    rw [hlookup _ (coin_key_ne outpoint).symm]
    rfl
  · unfold get_best_block DbWrapper.read
    rw [hlookup _ (by decide)]

/-- From an empty store, batches of coins that can be encoded never fail, and through all starts of the node
    the bytes show the coins as their records are read. -/
theorem stored_coins_as_read (curve : Secp256k1) (random : List UInt8) {calls : List Call}
    (hencodes : ∀ entries best_block, .batch_write entries best_block ∈ calls →
      ∀ outpoint coin, (outpoint, some coin) ∈ entries → ∃ bytes, coin.encode = .ok bytes) :
    ∃ db, calls.foldlM Call.apply (DbWrapper.new ∅ true random) = .ok db ∧
      Holds curve db (calls.foldl Call.record ⟨∅, 0⟩) := by
  have hkept : ∀ {start : DbWrapper} {view : CoinsViewDB}, Holds curve start view →
      ∃ db, calls.foldlM Call.apply start = .ok db ∧ Holds curve db (calls.foldl Call.record view) := by
    induction calls with
    | nil => exact fun hholds => ⟨_, rfl, hholds⟩
    | cons call rest ih =>
      intro start view hholds
      obtain ⟨mid, hmid, hnext⟩ := hholds.apply fun entries best_block heq =>
        hencodes entries best_block (heq ▸ List.mem_cons_self)
      obtain ⟨db, hdb, hlast⟩ := ih (fun entries best_block hmem =>
        hencodes entries best_block (List.mem_cons_of_mem call hmem)) hnext
      exact ⟨db, by rw [List.foldlM_cons, hmid]; exact hdb, hlast⟩
  exact hkept (Holds.new random)

theorem apply_writes_storable {entries : List (OutPoint × Option Coin)}
    (hstorable : ∀ outpoint coin, (outpoint, some coin) ∈ entries → Coin.Storable curve coin) :
    ∀ {coins : HashMap OutPoint Coin}, (∀ outpoint coin, coins.lookup outpoint = some coin → Coin.Storable curve coin) →
      ∀ outpoint coin, (apply_writes coins entries).lookup outpoint = some coin → Coin.Storable curve coin := by
  induction entries with
  | nil => exact fun hcoins => hcoins
  | cons entry rest ih =>
    intro coins hcoins
    refine ih (fun outpoint coin hmem => hstorable outpoint coin (List.mem_cons_of_mem entry hmem)) fun outpoint coin => ?_
    rw [lookup_apply_write]
    split
    · exact fun heq => hstorable entry.1 coin (heq ▸ List.mem_cons_self)
    · exact hcoins outpoint coin

/-- From an empty store, batches of storable coins never fail, and through all starts of the node
    the bytes read back as the coins and the best block that were written last. -/
theorem stored_coins_read_back (curve : Secp256k1) (random : List UInt8) {calls : List Call}
    (hstorable : ∀ entries best_block, .batch_write entries best_block ∈ calls →
      ∀ outpoint coin, (outpoint, some coin) ∈ entries → Coin.Storable curve coin) :
    ∃ db, calls.foldlM Call.apply (DbWrapper.new ∅ true random) = .ok db ∧
      (∀ outpoint, get_coin curve db outpoint = (calls.foldl Call.record ⟨∅, 0⟩).get_coin outpoint) ∧
      get_best_block db = (calls.foldl Call.record ⟨∅, 0⟩).best_block := by
  obtain ⟨db, hdb, hholds⟩ := @stored_coins_as_read curve random calls fun entries best_block hmem outpoint coin hcoin =>
    let ⟨bytes, hencode, _⟩ := (hstorable entries best_block hmem outpoint coin hcoin).readsBack
    ⟨bytes, hencode⟩
  have hkept : ∀ {view : CoinsViewDB}, view.Storable curve → (calls.foldl Call.record view).Storable curve := by
    clear hdb hholds
    induction calls with
    | nil => exact fun hview => hview
    | cons call rest ih =>
      intro view hview
      refine ih (fun entries best_block hmem => hstorable entries best_block (List.mem_cons_of_mem call hmem)) ?_
      cases call with
      | batch_write entries best_block =>
        exact apply_writes_storable (hstorable entries best_block List.mem_cons_self) hview
      | reopen random => exact hview
  have hread : (calls.foldl Call.record ⟨∅, 0⟩).read_back curve = calls.foldl Call.record ⟨∅, 0⟩ :=
    (hkept fun _ _ hnone => by cases hnone).read_back
  refine ⟨db, hdb, fun outpoint => ?_, hholds.best_block⟩
  rw [hholds.get_coin_eq, hread]

/-- A batch with one coin, and a start after it. -/
def one_coin_calls : List Call :=
  [.batch_write [(⟨1, 0⟩, some (coin_of_key generator_x generator_y))] 1, .reopen []]

theorem stored_coins_read_back_one_coin :
    ∃ db, one_coin_calls.foldlM Call.apply (DbWrapper.new ∅ true [0x1a, 0x2b]) = .ok db ∧
      (∀ outpoint, get_coin generator_curve db outpoint = (one_coin_calls.foldl Call.record ⟨∅, 0⟩).get_coin outpoint) ∧
      get_best_block db = (one_coin_calls.foldl Call.record ⟨∅, 0⟩).best_block := by
  refine stored_coins_read_back generator_curve _ fun entries best_block hmem outpoint coin hcoin => ?_
  obtain heq | hmem := List.mem_cons.mp hmem
  · cases heq
    cases List.mem_singleton.mp hcoin
    exact ⟨by decide, by decide, by decide, by decide, fun _ => ⟨rfl, rfl⟩⟩
  · cases List.mem_singleton.mp hmem

end qubitcoin.coins.stored

/-! The node over its coin database. -/

namespace qubitcoin.qubitcoind

variable (curve : Secp256k1)

/-- The coin database keeps all that is written to it. -/
def LiveNodeInterface.Keeps (self : LiveNodeInterface) : Prop := self.chainstate.coins_tip.base.Storable curve

/-- The node with its coin database as the records of that are read. -/
def LiveNodeInterface.reread (self : LiveNodeInterface) : LiveNodeInterface :=
  { self with chainstate := { self.chainstate with
      coins_tip := { self.chainstate.coins_tip with base := self.chainstate.coins_tip.base.read_back curve } } }

def Disk.reread (self : Disk) : Disk := { self with coins_db := self.coins_db.read_back curve }

variable {curve}

theorem LiveNodeInterface.Keeps.reread {self : LiveNodeInterface} (hkeeps : self.Keeps curve) : self.reread curve = self := by
  unfold LiveNodeInterface.reread
  rw [CoinsViewDB.Storable.read_back hkeeps]

theorem LiveNodeInterface.Keeps.disk {self : LiveNodeInterface} (hkeeps : self.Keeps curve) :
    self.disk.reread curve = self.disk := by
  have hdb : self.disk.coins_db.read_back curve = self.disk.coins_db := CoinsViewDB.Storable.read_back hkeeps
  unfold Disk.reread
  rw [hdb]

def genesis_x : List UInt8 := ((chainparams.genesis_output_script .Regtest).data.drop 2).take 32
def genesis_y : List UInt8 := ((chainparams.genesis_output_script .Regtest).data.drop 34).take 32

/-- The library, for the key of the genesis block. -/
def genesis_curve : Secp256k1 where
  decompress key := if key = 0x03 :: genesis_x then some (0x04 :: (genesis_x ++ genesis_y)) else none
  OnCurve x y := x = genesis_x ∧ y = genesis_y
  decompress_eq_some tag x key hx := by
    constructor
    · intro hkey
      split at hkey
      · next hsame =>
        obtain ⟨rfl, rfl⟩ := List.cons.inj hsame
        cases hkey
        exact ⟨genesis_y, rfl, ⟨rfl, rfl⟩, by decide, rfl⟩
      · cases hkey
    · rintro ⟨y, _, ⟨rfl, rfl⟩, rfl, rfl⟩
      rfl

/-- Every coin is in range, and pays to the key of the genesis block or to none in full length. -/
def plain (db : CoinsViewDB) : Bool := db.coins.entries.all fun entry =>
  decide (0 ≤ entry.2.tx_out.value ∧ entry.2.tx_out.value ≤ MAX_MONEY ∧ entry.2.height < 2 ^ 31 ∧
    entry.2.tx_out.script_pubkey.is_unspendable = false ∧ (entry.2.tx_out.script_pubkey.data.length ≠ 67 ∨
      entry.2.tx_out.script_pubkey = chainparams.genesis_output_script .Regtest))

theorem storable_of_plain {db : CoinsViewDB} (hplain : plain db = true) : db.Storable genesis_curve := by
  intro outpoint coin hlookup
  obtain ⟨hnonneg, hle, hheight, hspendable, hscript⟩ :=
    of_decide_eq_true (List.all_eq_true.mp hplain _ (AList.mem_lookup_iff.mp hlookup))
  refine ⟨hnonneg, hle, hheight, hspendable, ?_⟩
  obtain hlength | hgenesis := hscript
  · exact key_not_uncompressed genesis_curve hlength
  · intro _
    change coin.tx_out.script_pubkey = _ at hgenesis
    rw [hgenesis]
    exact ⟨rfl, rfl⟩

end qubitcoin.qubitcoind
