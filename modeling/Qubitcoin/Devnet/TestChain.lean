import Qubitcoin.Consensus.Merkle
import Qubitcoin.Script.Parse
import Qubitcoin.Validation.Connect

/-! `qubitcoin-node/test_framework.rs`: a chain that is mined in memory, without validation. -/

open qubitcoin primitives script transaction block params coins

namespace qubitcoin.primitives

/-- The bytes in hexadecimal digits, the most significant first. -/
def Uint256.to_hex (self : Uint256) : String :=
  String.ofList (self.data.reverse.flatMap fun byte => [Nat.digitChar (byte.toNat / 16), Nat.digitChar (byte.toNat % 16)])

/-- `Debug` of a block hash. -/
def BlockHash.debug (self : BlockHash) : String := "BlockHash(" ++ Uint256.to_hex self ++ ")"

end qubitcoin.primitives

namespace qubitcoin.test_framework

/-- The hash function, and the id of the public key of a secret key. -/
structure Keys where
  hash256 : List UInt8 → Uint256
  get_id : List UInt8 → List UInt8

structure TestChain where
  blocks : List Block
  headers : List BlockHeader
  coins : CoinsViewCache
  height : Int
  tip_hash : BlockHash
  coinbase_key : List UInt8
  coinbase_script : Script
  coinbase_txns : List Transaction

/-- A call returns, reports a text, or panics. -/
abbrev Outcome := Except (Failure String)

/-- Lift the panics of the coins cache. -/
def Outcome.of_panic {A : Type} (x : Except Panic A) : Outcome A := x.mapError .panic

/-- Update the coins with the transactions of a block. Outputs are added before the inputs
    are spent. -/
def update_coins (height : UInt32) : Bool → List Transaction → CoinsViewCache → Except Panic CoinsViewCache
  | _, [], coins => .ok coins
  | is_coinbase, tx :: rest, coins => do
    let coins ← add_coins coins tx height is_coinbase
    update_coins height false rest (if is_coinbase then coins else validation.spend_inputs tx.vin coins)

namespace TestChain

variable (keys : Keys) (self : TestChain)

def block_at (height : Int) : Option Block := if height < 0 then none else self.blocks[height.toNat]?

/-- Build a coinbase; extra outputs come after the reward. -/
def create_coinbase_with_extras (height : Int) (subsidy : Amount) (extra_outputs : List TxOut) : Transaction :=
  let sig_script := Script.new.push_int height
  let sig_script := if sig_script.len < 2 then sig_script.push_int 0 else sig_script
  .new keys.hash256 2 [⟨.null, sig_script, SEQUENCE_FINAL, .new⟩]
    (⟨subsidy, self.coinbase_script⟩ :: extra_outputs) 0

def create_coinbase (height : Int) (subsidy : Amount) : Transaction :=
  self.create_coinbase_with_extras keys height subsidy []

def pow_limit_compact : UInt32 := (uint256_to_arith ConsensusParams.regtest.pow_limit).get_compact false

/-- The search for a nonce over as many values as there are; beyond them it has no end. -/
def solve_from (target : ArithUint256) : Nat → BlockHeader → Option BlockHeader
  | 0, _ => none
  | fuel + 1, header =>
    if uint256_to_arith (header.block_hash keys.hash256) ≤ target then some header
    else solve_from target fuel { header with nonce := header.nonce + 1 }

def solve_header (header : BlockHeader) : Outcome BlockHeader :=
  match solve_from keys (ArithUint256.set_compact header.bits).1 (2 ^ 32) header with
  | some header => .ok header
  | none => .error (.panic (.assertion_failed "solve_header does not return"))

/-- The chain state after a block at the next height, whose coins have been updated. -/
def record (height : Int) (coins : CoinsViewCache) (block : Block) (coinbase : Transaction) : TestChain :=
  { self with
    coins
    height
    tip_hash := block.header.block_hash keys.hash256
    blocks := self.blocks ++ [block]
    headers := self.headers ++ [block.header]
    coinbase_txns := self.coinbase_txns ++ [coinbase] }

/-- The time of the next block, one second after its parent. -/
def next_time : Outcome UInt32 :=
  if 0 ≤ self.height then
    match self.headers[self.height.toNat]? with
    | some header => if header.time = 0xffffffff then .error (.panic (.overflow .u32)) else .ok (header.time + 1)
    | none => .error (.panic .index_out_of_bounds)
  else .ok 1296688602

def mine_block_with_coinbase_outputs (txs : List Transaction) (coinbase_extra_outputs : List TxOut) :
    Outcome (Block × TestChain) := do
  let height ← checked .i32 (self.height + 1)
  let subsidy ← check.get_block_subsidy height .regtest
  let coinbase := self.create_coinbase_with_extras keys height subsidy coinbase_extra_outputs
  let all_txs := coinbase :: txs
  let merkle_root := (merkle.block_merkle_root keys.hash256 all_txs).1
  let time ← self.next_time
  let header ← solve_header keys ⟨4, self.tip_hash, merkle_root, time, pow_limit_compact, 0⟩
  let block : Block := ⟨header, all_txs⟩
  let coins ← Outcome.of_panic (update_coins (as_u32 height) true all_txs self.coins)
  pure (block, self.record keys height coins block coinbase)

def mine_block (txs : List Transaction) : Outcome (Block × TestChain) :=
  self.mine_block_with_coinbase_outputs keys txs []

def connect_block (block : Block) : Outcome TestChain := do
  let height ← checked .i32 (self.height + 1)
  if block.header.prev_blockhash ≠ self.tip_hash then
    .error (.invalid ("connect_block: prev_blockhash mismatch at height " ++ toString height ++ " (expected tip " ++
      BlockHash.debug self.tip_hash ++ ", got " ++ BlockHash.debug block.header.prev_blockhash ++ ")"))
  else
    match block.vtx with
    | [] => .error (.invalid ("connect_block: block at height " ++ toString height ++ " has no transactions"))
    | coinbase :: _ => do
      let coins ← Outcome.of_panic (update_coins (as_u32 height) true block.vtx self.coins)
      pure (self.record keys height coins block coinbase)

def build_genesis_block : Outcome Block := do
  let coinbase := self.create_coinbase keys 0 (50 * COIN)
  let merkle_root := (merkle.block_merkle_root keys.hash256 [coinbase]).1
  let header ← solve_header keys ⟨1, 0, merkle_root, 1296688602, pow_limit_compact, 0⟩
  pure ⟨header, [coinbase]⟩

/-- A chain with a genesis block that pays to a key by its witness program. -/
def new_with_key_wpkh (coinbase_key : List UInt8) : Outcome TestChain := do
  let chain : TestChain := {
    blocks := []
    headers := []
    coins := .new ⟨∅, 0⟩
    height := -1
    tip_hash := 0
    coinbase_key
    coinbase_script := build_p2wpkh (keys.get_id coinbase_key)
    coinbase_txns := [] }
  let genesis ← chain.build_genesis_block keys
  let coinbase := chain.create_coinbase keys 0 (50 * COIN)
  let coins ← Outcome.of_panic (add_coins chain.coins coinbase 0 true)
  pure (chain.record keys 0 coins genesis coinbase)

def connect_blocks : List Block → TestChain → Outcome TestChain
  | [], chain => .ok chain
  | block :: rest, chain => do
    let chain ← chain.connect_block keys block
    connect_blocks rest chain

variable {keys : Keys} {self}

theorem solve_from_eq_some {target : ArithUint256} {fuel : Nat} {header solved : BlockHeader}
    (hsolve : solve_from keys target fuel header = some solved) : ∃ nonce, solved = { header with nonce } := by
  induction fuel generalizing header with
  | zero => cases hsolve
  | succ fuel ih =>
    rw [solve_from] at hsolve
    split at hsolve
    · cases hsolve
      exact ⟨_, rfl⟩
    · obtain ⟨nonce, rfl⟩ := ih hsolve
      exact ⟨nonce, rfl⟩

theorem solve_header_eq_ok {header solved : BlockHeader} (hsolve : solve_header keys header = .ok solved) :
    ∃ nonce, solved = { header with nonce } := by
  unfold solve_header at hsolve
  split at hsolve
  · next found hfound =>
    cases hsolve
    exact solve_from_eq_some hfound
  · cases hsolve

theorem connect_block_of_mine {txs : List Transaction} {outputs : List TxOut} {block : Block} {chain : TestChain}
    (hmine : self.mine_block_with_coinbase_outputs keys txs outputs = .ok (block, chain)) :
    self.connect_block keys block = .ok chain := by
  unfold mine_block_with_coinbase_outputs at hmine
  obtain ⟨height, hheight, hmine⟩ := bind_eq_ok_iff.mp hmine
  obtain ⟨subsidy, -, hmine⟩ := bind_eq_ok_iff.mp hmine
  obtain ⟨time, -, hmine⟩ := bind_eq_ok_iff.mp hmine
  obtain ⟨header, hheader, hmine⟩ := bind_eq_ok_iff.mp hmine
  obtain ⟨coins, hcoins, hmine⟩ := bind_eq_ok_iff.mp hmine
  obtain ⟨rfl, rfl⟩ := Prod.mk.inj (Except.ok.inj hmine)
  obtain ⟨nonce, rfl⟩ := solve_header_eq_ok hheader
  unfold connect_block
  refine bind_eq_ok_iff.mpr ⟨height, hheight, ?_⟩
  dsimp only
  rw [if_neg (by simp)]
  exact bind_eq_ok_iff.mpr ⟨coins, hcoins, rfl⟩

theorem connect_block_eq_ok {block : Block} {chain : TestChain} (hconnect : self.connect_block keys block = .ok chain) :
    chain.blocks = self.blocks ++ [block] ∧ chain.height = self.height + 1 ∧ IntType.i32.fits chain.height ∧
      chain.coinbase_key = self.coinbase_key := by
  unfold connect_block at hconnect
  obtain ⟨height, hheight, hconnect⟩ := bind_eq_ok_iff.mp hconnect
  obtain ⟨rfl, hfits⟩ := checked_eq_ok.mp hheight
  split at hconnect
  · cases hconnect
  · split at hconnect
    · cases hconnect
    · obtain ⟨coins, -, hconnect⟩ := bind_eq_ok_iff.mp hconnect
      obtain rfl := Except.ok.inj hconnect
      exact ⟨rfl, rfl, hfits, rfl⟩

theorem connect_blocks_concat {blocks : List Block} {block : Block} {start middle chain : TestChain}
    (hblocks : connect_blocks keys blocks start = .ok middle) (hblock : middle.connect_block keys block = .ok chain) :
    connect_blocks keys (blocks ++ [block]) start = .ok chain := by
  induction blocks generalizing start with
  | nil =>
    cases hblocks
    exact bind_eq_ok_iff.mpr ⟨chain, hblock, rfl⟩
  | cons first rest ih =>
    obtain ⟨next, hnext, hrest⟩ := bind_eq_ok_iff.mp hblocks
    exact bind_eq_ok_iff.mpr ⟨next, hnext, ih hrest⟩

theorem connect_blocks_eq_ok {blocks : List Block} {start chain : TestChain} (hstart : IntType.i32.fits start.height)
    (hblocks : connect_blocks keys blocks start = .ok chain) :
    chain.blocks = start.blocks ++ blocks ∧ chain.height = start.height + blocks.length ∧
      IntType.i32.fits chain.height ∧ chain.coinbase_key = start.coinbase_key := by
  induction blocks generalizing start with
  | nil =>
    cases hblocks
    exact ⟨(List.append_nil _).symm, (Int.add_zero _).symm, hstart, rfl⟩
  | cons block rest ih =>
    obtain ⟨next, hnext, hrest⟩ := bind_eq_ok_iff.mp hblocks
    obtain ⟨hfirst, hheight, hfits, hkey⟩ := connect_block_eq_ok hnext
    obtain ⟨hall, htop, hlast, hsame⟩ := ih hfits hrest
    refine ⟨by rw [hall, hfirst, List.append_assoc]; rfl, ?_, hlast, hsame.trans hkey⟩
    rw [htop, hheight, List.length_cons]
    push_cast
    ring

theorem new_with_key_wpkh_eq_ok {coinbase_key : List UInt8} {chain : TestChain}
    (hnew : new_with_key_wpkh keys coinbase_key = .ok chain) :
    ∃ genesis, chain.blocks = [genesis] ∧ chain.height = 0 ∧ chain.tip_hash = genesis.header.block_hash keys.hash256 ∧
      chain.coinbase_key = coinbase_key := by
  unfold new_with_key_wpkh at hnew
  obtain ⟨genesis, -, hnew⟩ := bind_eq_ok_iff.mp hnew
  obtain ⟨coins, -, hnew⟩ := bind_eq_ok_iff.mp hnew
  obtain rfl := Except.ok.inj hnew
  exact ⟨genesis, rfl, rfl, rfl, rfl⟩

variable (keys) in
/-- A chain that its blocks give when they are connected to the genesis block of a key. -/
def ReplayOf (coinbase_key : List UInt8) (chain : TestChain) : Prop :=
  ∃ start rest, new_with_key_wpkh keys coinbase_key = .ok start ∧ connect_blocks keys rest start = .ok chain

theorem ReplayOf.mine {coinbase_key : List UInt8} (hreplay : ReplayOf keys coinbase_key self) {txs : List Transaction}
    {outputs : List TxOut} {block : Block} {chain : TestChain}
    (hmine : self.mine_block_with_coinbase_outputs keys txs outputs = .ok (block, chain)) :
    ReplayOf keys coinbase_key chain := by
  obtain ⟨start, rest, hnew, hblocks⟩ := hreplay
  exact ⟨start, rest ++ [block], hnew, connect_blocks_concat hblocks (connect_block_of_mine hmine)⟩

theorem ReplayOf.spec {coinbase_key : List UInt8} (hreplay : ReplayOf keys coinbase_key self) :
    ∃ start genesis rest, new_with_key_wpkh keys coinbase_key = .ok start ∧
      connect_blocks keys rest start = .ok self ∧ start.tip_hash = genesis.header.block_hash keys.hash256 ∧
      self.blocks = genesis :: rest ∧ self.height = rest.length ∧ IntType.i32.fits self.height ∧
      self.coinbase_key = coinbase_key := by
  obtain ⟨start, rest, hnew, hblocks⟩ := hreplay
  obtain ⟨genesis, hgenesis, hzero, htip, hkey⟩ := new_with_key_wpkh_eq_ok hnew
  have hstart : IntType.i32.fits start.height := by
    rw [hzero]
    decide
  obtain ⟨hall, hheight, hfits, hsame⟩ := connect_blocks_eq_ok hstart hblocks
  rw [hgenesis] at hall
  rw [hzero, Int.zero_add] at hheight
  exact ⟨start, genesis, rest, hnew, hblocks, htip, hall, hheight, hfits, hsame.trans hkey⟩

end TestChain

end qubitcoin.test_framework
