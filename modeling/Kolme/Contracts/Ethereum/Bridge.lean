import Kolme.Lib.Machine
import Kolme.Contracts.Ethereum.BridgeActions

/-!
# The Ethereum bridge contract

Deposits, the execution of signed actions, and the contract as a state machine. What a call needs
of the world around the contract, the sender, the sent value and the answers of other contracts, is
part of the call.
-/

namespace Kolme.Ethereum

open Except

/-- What a call learns from the world: who calls, the value sent along, and what other contracts
answer. -/
structure Env where
  sender : Address
  value : Word
  /-- Does the call of a signed action succeed? -/
  call : ExecuteCall → Bool
  /-- The allowance a token grants the bridge over the sender's funds. -/
  allowance : Address → Word
  /-- Does the transfer of an amount of a token to the bridge succeed? -/
  transferFrom : Address → Word → Bool

inductive Event
  | fundsReceived (eventId : U64) (sender : Address) (tokens : List Address) (amounts : List Word)
    (keys : List Bytes)
  | signed (eventId : U64) (sender : Address) (actionId : U64)
deriving DecidableEq

/-- A checked increment. -/
def increment (n : U64) : Except Error U64 :=
  if h : n.val + 1 < 256 ^ 8 then .ok ⟨n.val + 1, h⟩ else .error .panic

theorem increment_ok {n m : U64} (h : increment n = .ok m) : m.val = n.val + 1 := by
  unfold increment at h
  split at h
  · obtain rfl := Except.ok.inj h
    rfl
  · cases h

variable (crypto : Crypto)

def deploy (set : ValidatorSet) : Except Error State := do
  let validatorSet ← setValidatorSet crypto set
  -- Event 0 is reserved for bridge instantiation in kolme.
  return { validatorSet, nextEventId := 1, nextActionId := 0 }

/-! ## Deposits -/

/-- `(bytes, bytes)` -/
def decodeRegularKey (bs : Bytes) : Except Error (Bytes × Bytes) :=
  fromOption .malformedAbi do
    Abi.head bs 2
    let key ← Abi.decodeBytes bs 0
    let signature ← Abi.decodeBytes bs 1
    some (key, signature)

/-- The keys of a deposit, each with a signature of the sender's address. -/
def regularKeysFrom (regularHash : Word) (i : Nat) : List Bytes → Except Error (List Bytes)
  | [] => .ok []
  | bs :: rest => do
    let (key, signature) ← decodeRegularKey bs
    ensure (isValidSecp256k1Pubkey key) (.invalidRegularKey i key)
    let expected ← validatorAddress crypto key
    let received ← recoverSigner crypto regularHash signature
    ensure (received = expected) (.invalidRegularKeySignature i expected received)
    let keys ← regularKeysFrom regularHash (i + 1) rest
    return key :: keys

/-- The transfers of the tokens of a deposit to the bridge. -/
def takeDeposits (env : Env) : List (Address × Word) → Except Error Unit
  | [] => .ok ()
  | (token, amount) :: rest => do
    ensure (token ≠ 0) (.invalidDepositToken token)
    let allowed := env.allowance token
    ensure (amount ≤ allowed) (.insufficientAllowance token env.sender allowed amount)
    ensure (env.transferFrom token amount = true) (.erc20TransferFailed token env.sender amount)
    takeDeposits env rest

def regular (env : Env) (s : State) (tokens : List Address) (amounts : List Word)
    (keys : List Bytes) : Except Error (State × Event) := do
  ensure (tokens.length = amounts.length)
    (.regularFundsLengthMismatch tokens.length amounts.length)
  let regularHash := crypto.sha256 (Bytes.toBE 20 env.sender.val)
  let regularKeys ← regularKeysFrom crypto regularHash 0 keys
  takeDeposits env (tokens.zip amounts)
  -- Sent ether is reported as a token with the zero address.
  let (eventTokens, eventAmounts) :=
    if 0 < env.value then (tokens ++ [0], amounts ++ [env.value]) else (tokens, amounts)
  let nextEventId ← increment s.nextEventId
  return ({ s with nextEventId },
    .fundsReceived s.nextEventId env.sender eventTokens eventAmounts regularKeys)

/-! ## Signed actions -/

/-- `(uint64, bytes)` -/
def decodePayload (payload : Bytes) : Except Error (U64 × Bytes) :=
  fromOption .malformedAbi do
    Abi.head payload 2
    let actionId ← Abi.decodeUint 64 payload 0
    let actionData ← Abi.decodeBytes payload 1
    some (actionId, actionData)

/-- The addresses of the keys, in order. -/
def validatorAddresses (keys : List Bytes) : Except Error (List Address) :=
  keys.mapM (validatorAddress crypto)

def verifySignatures (payloadHash : Word) (processor : Bytes) (approvers : List Bytes)
    (expected : ExpectedSigners) : Except Error Unit := do
  let expectedProcessorSigner ← validatorAddress crypto expected.processor
  let processorSignerRecovered ← recoverSigner crypto payloadHash processor
  ensure (processorSignerRecovered = expectedProcessorSigner)
    (.invalidProcessorSignature expectedProcessorSigner processorSignerRecovered)
  let configuredApproverSigners ← validatorAddresses crypto expected.approvers
  verifyApproverSignatures crypto payloadHash approvers configuredApproverSigners
    expected.neededApprovers

def executeSigned (env : Env) (s : State) (payload processor : Bytes) (approvers : List Bytes) :
    Except Error (State × Event) := do
  let (actionId, actionData) ← decodePayload payload
  ensure (actionId = s.nextActionId) (.incorrectActionId s.nextActionId actionId)
  let payloadHash := crypto.sha256 payload
  let expected ← expectedSignersForAction crypto s.validatorSet actionData
  -- First, the outer layer: the signatures for the execution of the action.
  verifySignatures crypto payloadHash processor approvers expected
  -- Second, the inner layer: the action itself.
  validateActionForExecution crypto s.validatorSet actionData
  let validatorSet ← executeAction crypto env.call s.validatorSet actionData
  let nextEventId ← increment s.nextEventId
  let nextActionId ← increment s.nextActionId
  return ({ validatorSet, nextEventId, nextActionId },
    .signed s.nextEventId env.sender actionId)

/-! ## The contract as a machine -/

inductive Call
  | regular (env : Env) (tokens : List Address) (amounts : List Word) (keys : List Bytes)
  | executeSigned (env : Env) (payload processor : Bytes) (approvers : List Bytes)

/-- What a call does to the state and the event it emits. -/
def Call.perform (s : State) : Call → Except Error (State × Event)
  | .regular env tokens amounts keys => Ethereum.regular crypto env s tokens amounts keys
  | .executeSigned env payload processor approvers =>
    Ethereum.executeSigned crypto env s payload processor approvers

def machine : Machine State Call Error where
  step s call := do
    let (s', _) ← call.perform crypto s
    return s'

end Kolme.Ethereum
