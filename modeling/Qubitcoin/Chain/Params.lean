import Qubitcoin.Consensus.Transaction

/-! `qubitcoin-common/chainparams.rs`: networks and their genesis blocks. -/

open qubitcoin primitives script transaction block params

namespace qubitcoin.chainparams

inductive Network where
  | Mainnet | Testnet | Testnet4 | Regtest | Signet
  deriving DecidableEq, Repr

structure ChainParams where
  network : Network
  consensus : ConsensusParams
  genesis_block_hash : BlockHash

def ChainParams.regtest : ChainParams where
  network := .Regtest
  consensus := .regtest
  genesis_block_hash := 0x0f9188f13cb7b2c71f2a335e3a4fc328bf5beb436012afca590b1a11466e2206

def genesis_script_sig : Network → Script
  | .Testnet4 => ⟨[
      0x04, 0xff, 0xff, 0x00, 0x1d, 0x01, 0x04, 0x4c, 0x4c, 0x30, 0x33, 0x2f, 0x4d, 0x61, 0x79, 0x2f, 0x32,
      0x30, 0x32, 0x34, 0x20, 0x30, 0x30, 0x30, 0x30, 0x30, 0x30, 0x30, 0x30, 0x30, 0x30, 0x30, 0x30,
      0x30, 0x30, 0x30, 0x30, 0x30, 0x30, 0x30, 0x30, 0x31, 0x65, 0x62, 0x64, 0x35, 0x38, 0x63, 0x32,
      0x34, 0x34, 0x39, 0x37, 0x30, 0x62, 0x33, 0x61, 0x61, 0x39, 0x64, 0x37, 0x38, 0x33, 0x62, 0x62,
      0x30, 0x30, 0x31, 0x30, 0x31, 0x31, 0x66, 0x62, 0x65, 0x38, 0x65, 0x61, 0x38, 0x65, 0x39, 0x38,
      0x65, 0x30, 0x30, 0x65]⟩
  | _ => ⟨[
      0x04, 0xff, 0xff, 0x00, 0x1d, 0x01, 0x04, 0x45, 0x54, 0x68, 0x65, 0x20, 0x54, 0x69, 0x6d, 0x65,
      0x73, 0x20, 0x30, 0x33, 0x2f, 0x4a, 0x61, 0x6e, 0x2f, 0x32, 0x30, 0x30, 0x39, 0x20, 0x43, 0x68,
      0x61, 0x6e, 0x63, 0x65, 0x6c, 0x6c, 0x6f, 0x72, 0x20, 0x6f, 0x6e, 0x20, 0x62, 0x72, 0x69, 0x6e,
      0x6b, 0x20, 0x6f, 0x66, 0x20, 0x73, 0x65, 0x63, 0x6f, 0x6e, 0x64, 0x20, 0x62, 0x61, 0x69, 0x6c,
      0x6f, 0x75, 0x74, 0x20, 0x66, 0x6f, 0x72, 0x20, 0x62, 0x61, 0x6e, 0x6b, 0x73]⟩

/-- The output script of a genesis coinbase: a public key and `OP_CHECKSIG`. -/
def genesis_output_script : Network → Script
  | .Testnet4 => ⟨0x21 :: List.replicate 33 0x00 ++ [0xac]⟩
  | _ => ⟨[
      0x41, 0x04, 0x67, 0x8a, 0xfd, 0xb0, 0xfe, 0x55, 0x48, 0x27, 0x19, 0x67, 0xf1, 0xa6, 0x71, 0x30, 0xb7,
      0x10, 0x5c, 0xd6, 0xa8, 0x28, 0xe0, 0x39, 0x09, 0xa6, 0x79, 0x62, 0xe0, 0xea, 0x1f, 0x61, 0xde,
      0xb6, 0x49, 0xf6, 0xbc, 0x3f, 0x4c, 0xef, 0x38, 0xc4, 0xf3, 0x55, 0x04, 0xe5, 0x1e, 0xc1, 0x12,
      0xde, 0x5c, 0x38, 0x4d, 0xf7, 0xba, 0x0b, 0x8d, 0x57, 0x8a, 0x4c, 0x70, 0x2b, 0x6b, 0xf1, 0x1d,
      0x5f, 0xac]⟩

/-- Time, compact target and nonce of a genesis header. -/
def genesis_header : Network → UInt32 × UInt32 × UInt32
  | .Mainnet => (1231006505, 0x1d00ffff, 2083236893)
  | .Testnet => (1296688602, 0x1d00ffff, 414098458)
  | .Testnet4 => (1714777860, 0x1d00ffff, 393743547)
  | .Regtest => (1296688602, 0x207fffff, 2)
  | .Signet => (1598918400, 0x1e0377ae, 52613770)

/-- The genesis block. Its merkle root is the id of its only transaction. -/
def ChainParams.create_genesis_block (self : ChainParams) (hash256 : List UInt8 → Uint256) : Block :=
  let txin : TxIn := ⟨.null, genesis_script_sig self.network, SEQUENCE_FINAL, .new⟩
  let txout : TxOut := ⟨50 * 100000000, genesis_output_script self.network⟩
  let genesis_tx := Transaction.new hash256 1 [txin] [txout] 0
  let (time, bits, nonce) := genesis_header self.network
  ⟨{ version := 1, prev_blockhash := 0, merkle_root := genesis_tx.txid, time, bits, nonce }, [genesis_tx]⟩

end qubitcoin.chainparams
