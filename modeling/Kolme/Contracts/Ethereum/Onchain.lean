import Kolme.Contracts.Ethereum.Bridge
import Kolme.Lib.Exec

/-!
# The bridge among other contracts

The bridge calls tokens and the targets of signed actions, and these may call the bridge back before
they answer. Foreign code is a tree of what it does next, and it sees how each of its calls ends. A
call that reverts is undone with everything that happened within it.

The guard against reentrancy is a flag that is set while one of the two guarded functions runs.
-/

namespace Kolme.Ethereum

/-- Why a call is reverted. -/
inductive Revert
  | reentrantCall
  /-- Ether was sent to a function that is not payable. -/
  | notPayable
  | error (error : Error)
deriving DecidableEq

/-- A call that the bridge makes to change something outside. -/
inductive Outgoing
  /-- Tokens are taken from an owner to the bridge. -/
  | transferFrom (token owner : Address) (amount : Word)
  | execute (action : ExecuteCall)
deriving DecidableEq

/-- The bridge and what can be seen of it. -/
structure Onchain where
  state : State
  /-- The flag of the guard. -/
  entered : Bool
  /-- The ether that the bridge holds. -/
  balance : Nat
  log : List Event
  outgoing : List Outgoing

mutual
/-- What foreign code does when it is called. -/
inductive Foreign
  | answers (success : Bool)
  /-- Ether is forced on the bridge. -/
  | sends (value : Nat) (rest : Foreign)
  | calls (call : BridgeCall) (rest : Bool → Foreign)
  /-- A call of other foreign code. -/
  | tries (inner : Foreign) (rest : Bool → Foreign)

/-- A call of the bridge, with what the contracts do that the bridge calls in turn. -/
inductive BridgeCall
  | regular (sender : Address) (value : Word) (tokens : List Address) (amounts : List Word)
    (keys : List Bytes) (allowance : Nat → Word) (transferFrom : Nat → Foreign)
  | executeSigned (sender : Address) (value : Word) (payload processor : Bytes)
    (approvers : List Bytes) (target : Foreign)
end

open Exec

def reverting {σ α : Type} (x : Except Error α) : Exec Revert σ α := lift (x.mapError .error)

/-- Control passes to foreign code, which answers. -/
def handOver (foreign : Onchain → Onchain × Bool) : Exec Revert Onchain Bool := fun w =>
  let (w, success) := foreign w
  (.ok success, w)

def nonReentrant (body : Exec Revert Onchain Unit) : Exec Revert Onchain Unit := do
  ensure ((← get).entered = false) .reentrantCall
  modify fun w => { w with entered := true }
  body
  modify fun w => { w with entered := false }

def emit (event : Event) : Exec Revert Onchain Unit := modify fun w => { w with log := w.log ++ [event] }

section

variable (crypto : Crypto)

/-- The transfers of the tokens of a deposit from the `i`-th on. -/
def takeTokens (sender : Address) (allowance : Nat → Word)
    (transferFrom : Nat → Onchain → Onchain × Bool) (i : Nat) :
    List (Address × Word) → Exec Revert Onchain Unit
  | [] => pure ()
  | (token, amount) :: rest => do
    ensure (token ≠ 0) (.error (.invalidDepositToken token))
    let allowed := allowance i
    ensure (amount ≤ allowed) (.error (.insufficientAllowance token sender allowed amount))
    modify fun w => { w with outgoing := w.outgoing ++ [.transferFrom token sender amount] }
    let success ← handOver (transferFrom i)
    ensure (success = true) (.error (.erc20TransferFailed token sender amount))
    takeTokens sender allowance transferFrom (i + 1) rest

/-- The body of `regular`. -/
def depositBody (sender : Address) (value : Word) (tokens : List Address) (amounts : List Word)
    (keys : List Bytes) (allowance : Nat → Word) (transferFrom : Nat → Onchain → Onchain × Bool) :
    Exec Revert Onchain Unit := do
  ensure (tokens.length = amounts.length)
    (.error (.regularFundsLengthMismatch tokens.length amounts.length))
  let regularHash := crypto.sha256 (Bytes.toBE 20 sender.val)
  let regularKeys ← reverting (regularKeysFrom crypto regularHash 0 keys)
  takeTokens sender allowance transferFrom 0 (tokens.zip amounts)
  -- Sent ether is reported as a token with the zero address.
  let (eventTokens, eventAmounts) :=
    if 0 < value then (tokens ++ [0], amounts ++ [value]) else (tokens, amounts)
  emit (.fundsReceived (← get).state.nextEventId sender eventTokens eventAmounts regularKeys)
  let nextEventId ← reverting (increment (← get).state.nextEventId)
  modify fun w => { w with state := { w.state with nextEventId } }

/-- The call of the target of an action, which may take ether along. -/
def callTarget (target : Onchain → Onchain × Bool) (action : ExecuteCall) : Exec Revert Onchain Unit := do
  let failed : Error := .executeCallFailed action.target action.value action.callData
  ensure (action.value.val ≤ (← get).balance) (.error failed)
  modify fun w => { w with
    balance := w.balance - action.value.val, outgoing := w.outgoing ++ [.execute action] }
  let success ← handOver target
  ensure (success = true) (.error failed)

def runAction (target : Onchain → Onchain × Bool) (actionData : Bytes) : Exec Revert Onchain Unit := do
  let (actionType, data) ← reverting (decodeAction actionData)
  if actionType = actionExecute then
    let action ← reverting (decodeExecuteCall data)
    callTarget target action
  else if actionType = actionSelfReplace then
    let validatorSet ← reverting (executeSelfReplace crypto (← get).state.validatorSet data)
    modify fun w => { w with state := { w.state with validatorSet } }
  else if actionType = actionNewSet then
    let validatorSet ← reverting (executeNewSet crypto (← get).state.validatorSet data)
    modify fun w => { w with state := { w.state with validatorSet } }
  else throw (.error (.invalidActionType actionType))

/-- The body of `execute_signed`. -/
def signedBody (sender : Address) (payload processor : Bytes) (approvers : List Bytes)
    (target : Onchain → Onchain × Bool) : Exec Revert Onchain Unit := do
  let (actionId, actionData) ← reverting (decodePayload payload)
  let s := (← get).state
  ensure (actionId = s.nextActionId) (.error (.incorrectActionId s.nextActionId actionId))
  let payloadHash := crypto.sha256 payload
  let expected ← reverting (expectedSignersForAction crypto s.validatorSet actionData)
  -- First, the outer layer: the signatures for the execution of the action.
  reverting (verifySignatures crypto payloadHash processor approvers expected)
  -- Second, the inner layer: the action itself.
  reverting (validateActionForExecution crypto s.validatorSet actionData)
  runAction crypto target actionData
  emit (.signed (← get).state.nextEventId sender actionId)
  let nextEventId ← reverting (increment (← get).state.nextEventId)
  modify fun w => { w with state := { w.state with nextEventId } }
  let nextActionId ← reverting (increment (← get).state.nextActionId)
  modify fun w => { w with state := { w.state with nextActionId } }

mutual
def Foreign.run : Foreign → Onchain → Onchain × Bool
  | .answers success, w => (w, success)
  | .sends value rest, w => rest.run { w with balance := w.balance + value }
  | .calls call rest, w =>
    match call.perform w with
    | (.ok (), w') => (rest true).run w'
    | (.error _, _) => (rest false).run w
  | .tries inner rest, w =>
    match inner.run w with
    | (w', true) => (rest true).run w'
    | (_, false) => (rest false).run w
termination_by structural foreign => foreign

def BridgeCall.perform : BridgeCall → Exec Revert Onchain Unit
  | .regular sender value tokens amounts keys allowance transferFrom => do
    modify fun w => { w with balance := w.balance + value.val }
    nonReentrant (depositBody crypto sender value tokens amounts keys allowance
      fun i => (transferFrom i).run)
  | .executeSigned sender value payload processor approvers target => do
    ensure (value = 0) .notPayable
    nonReentrant (signedBody crypto sender payload processor approvers target.run)
termination_by structural call => call
end

end

end Kolme.Ethereum
