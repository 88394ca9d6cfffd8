import Qubitcoin.Coins.Refinement
import Qubitcoin.Validation.Overflow
import Qubitcoin.Daemon.Follow
import Qubitcoin.Consensus.P2shSigops
import Qubitcoin.Indexer.Gapless
import Qubitcoin.Indexer.Deferred
import Qubitcoin.Indexer.Prune
import Qubitcoin.Chain.Retarget
import Qubitcoin.Storage.FlatFiles
import Qubitcoin.Storage.Mmap
import Qubitcoin.Net.Delivery
import Qubitcoin.Net.Buffer
import Qubitcoin.Devnet.Restore
import Qubitcoin.Net.Handshake
import Qubitcoin.Chainstate.Arena
import Qubitcoin.Coins.Usage
import Qubitcoin.Script.Multisig
import Qubitcoin.Crypto.MuHash
import Qubitcoin.Validation.Checkers
import Qubitcoin.Daemon.Crash
import Qubitcoin.Chainstate.AssumeValid
import Qubitcoin.Chainstate.Verdicts
import Qubitcoin.Script.PushOnly
import Qubitcoin.Script.FindAndDelete
import Qubitcoin.Validation.SequenceLocks
import Qubitcoin.Validation.LaxDer
import Qubitcoin.Net.InBounds
import Qubitcoin.Consensus.Signet
import Qubitcoin.Daemon.Scan
import Qubitcoin.Daemon.Send
import Qubitcoin.Daemon.Generate
import Qubitcoin.Script.Conditions
import Qubitcoin.Script.Numbers
import Qubitcoin.IndexerWeb.Rollback
import Qubitcoin.Indexer.Smt
import Qubitcoin.Primitives.ArithUint256
import Qubitcoin.Indexer.HostCalls
import Qubitcoin.Rpc.Server
import Qubitcoin.Wallet.Saved
import Qubitcoin.Consensus.Signed
import Qubitcoin.Storage.Reversal
import Qubitcoin.Storage.Wrapper
