import Qubitcoin.Primitives

/-! `qubitcoin-consensus/validation_state.rs`. -/

namespace qubitcoin.validation_state

inductive TxValidationResult where
  | Unset | Consensus | RecentConsensusChange | NotValidated | MissingInputs | NotStandard | ResourceLimit
  deriving DecidableEq, Repr

inductive BlockValidationResult where
  | Unset | Consensus | RecentConsensusChange | CachedInvalid | InvalidHeader | MutatedBlock
  | TimeFuture | Checkpoint
  deriving DecidableEq, Repr

inductive ValidationMode where
  | Valid | Invalid | Error
  deriving DecidableEq, Repr

structure ValidationState (R : Type) where
  mode : ValidationMode
  result : R
  reject_reason : String
  debug_message : String
  deriving DecidableEq, Repr

/-- The state that a rejection leaves: what `invalid` writes. -/
def ValidationState.invalid {R : Type} (result : R) (reject_reason debug_message : String) :
    ValidationState R :=
  ⟨.Invalid, result, reject_reason, debug_message⟩

abbrev TxValidationState := ValidationState TxValidationResult
abbrev BlockValidationState := ValidationState BlockValidationResult

def tx_invalid (result : TxValidationResult) (reject_reason debug_message : String) :
    Failure TxValidationState :=
  .invalid (.invalid result reject_reason debug_message)

def block_invalid (result : BlockValidationResult) (reject_reason debug_message : String) :
    Failure BlockValidationState :=
  .invalid (.invalid result reject_reason debug_message)

/-- How a block check reports the rejection of one of its transactions: the
    reason and the message are kept, the result is `Consensus`. -/
def as_block_failure : Failure TxValidationState → Failure BlockValidationState
  | .invalid state => block_invalid .Consensus state.reject_reason state.debug_message
  | .panic why => .panic why

end qubitcoin.validation_state
