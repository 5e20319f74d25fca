import Kolme.Shared.Types

/-!
# Data of the Cosmos bridge contract

The contract's state, the messages it receives, and the payloads the chain signs for it. A payload
and the texts inside it are rendered strings, so that a signature is over one representation.
-/

namespace Kolme.Cosmos

structure Coin where
  denom : String
  amount : Nat
deriving DecidableEq

/-- The messages a contract can send: transfers, and everything else in its rendered form. -/
inductive CosmosMsg
  | bankSend (toAddress : String) (amount : List Coin)
  | other (rendered : String)
deriving DecidableEq

structure State where
  set : ValidatorSet
  /-- IDs for bridge events. -/
  nextEventId : BridgeEventId
  /-- IDs for actions generated by Kolme and submitted to this contract. -/
  nextActionId : BridgeActionId
deriving DecidableEq

/-- An action to be performed based on a submission from the Kolme chain. -/
inductive CosmosAction
  | cosmos (messages : List CosmosMsg)
  /-- The rendered version of a `SelfReplace` and the signature of the validator who is
  self-replacing. -/
  | selfReplace (rendered : String) (signature : SignatureWithRecovery)
  /-- The rendered version of a `ValidatorSet` and the signatures of those who approve it. -/
  | newSet (rendered : String) (approvals : List SignatureWithRecovery)
deriving DecidableEq

structure PayloadWithId where
  /-- Monotonically increasing ID to ensure messages are sent in the correct order. -/
  id : BridgeActionId
  action : CosmosAction
deriving DecidableEq

inductive ExecuteMsg
  /-- General purpose message for regular interaction. -/
  | regular (keys : List KeyRegistration)
  /-- Submit a message signed by the approvers and the processor. -/
  | signed (processor : SignatureWithRecovery) (approvers : List SignatureWithRecovery)
    (payload : String)
deriving DecidableEq

inductive BridgeEventMessage
  | regular (wallet : String) (funds : List Coin) (keys : List PublicKey)
  | signed (wallet : String) (actionId : BridgeActionId)
deriving DecidableEq

end Kolme.Cosmos
