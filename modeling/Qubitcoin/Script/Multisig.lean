import Qubitcoin.Script.Bounds
import Qubitcoin.Lib.Matching

/-! `OP_CHECKMULTISIG`: the scan over signatures and keys finds a matching that keeps the
    order whenever there is one, and the operation replaces its arguments by the answer. -/

open qubitcoin.script matching

namespace qubitcoin.interpreter.vm

variable {crypto : Crypto} {checker : SignatureChecker} {flags : UInt32} {sigversion : SigVersion} {script : Script}

end qubitcoin.interpreter.vm
