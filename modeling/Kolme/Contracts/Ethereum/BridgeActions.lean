import Kolme.Contracts.Ethereum.BridgeBase

/-!
# The actions of the Ethereum bridge contract

An action is a tag and its data: a call to another contract, the replacement of one validator key,
or a whole new validator set. Each step of the contract decodes the data for itself; the decoding
functions are shared, and `malformedAbi` is what a failed decoding reverts with.
-/

namespace Kolme.Ethereum

open Except

def actionExecute : Nat := 0
def actionSelfReplace : Nat := 1
def actionNewSet : Nat := 2

def validatorListener : Nat := 0
def validatorProcessor : Nat := 1
def validatorApprover : Nat := 2

/-! ## Decoding -/

structure ExecuteCall where
  target : Address
  value : Word
  callData : Bytes
deriving DecidableEq

structure SelfReplace where
  validatorType : Nat
  current : Bytes
  replacement : Bytes
deriving DecidableEq

structure NewSet where
  set : ValidatorSet
  rendered : Bytes
  approvals : List Bytes
deriving DecidableEq

/-- `(uint8, bytes)` -/
def decodeAction (actionData : Bytes) : Except Error (Nat × Bytes) :=
  fromOption .malformedAbi do
    Abi.head actionData 2
    let actionType ← Abi.decodeUint 8 actionData 0
    let data ← Abi.decodeBytes actionData 1
    some (actionType.val, data)

/-- `(address, uint256, bytes)` -/
def decodeExecuteCall (data : Bytes) : Except Error ExecuteCall :=
  fromOption .malformedAbi do
    Abi.head data 3
    let target ← Abi.decodeUint 160 data 0
    let value ← Abi.decodeUint 256 data 1
    let callData ← Abi.decodeBytes data 2
    some { target, value, callData }

/-- `(uint8, bytes, bytes)` -/
def decodeSelfReplace (data : Bytes) : Except Error SelfReplace :=
  fromOption .malformedAbi do
    Abi.head data 3
    let validatorType ← Abi.decodeUint 8 data 0
    let current ← Abi.decodeBytes data 1
    let replacement ← Abi.decodeBytes data 2
    some { validatorType := validatorType.val, current, replacement }

/-- `(bytes, bytes[], uint16, bytes[], uint16, bytes, bytes[])` -/
def decodeNewSet (data : Bytes) : Except Error NewSet :=
  fromOption .malformedAbi do
    Abi.head data 7
    let processor ← Abi.decodeBytes data 0
    let listeners ← Abi.decodeBytesArray data 1
    let neededListeners ← Abi.decodeUint 16 data 2
    let approvers ← Abi.decodeBytesArray data 3
    let neededApprovers ← Abi.decodeUint 16 data 4
    let rendered ← Abi.decodeBytes data 5
    let approvals ← Abi.decodeBytesArray data 6
    some
      { set := { processor, listeners, neededListeners, approvers, neededApprovers }
        rendered
        approvals }

section

variable (crypto : Crypto)

/-! ## Key arrays -/

/-- The first key with the hash of `target`. -/
def findValidatorIndex (keys : List Bytes) (target : Bytes) : Option Nat :=
  keys.findIdx? (fun key => crypto.keccak256 key = crypto.keccak256 target)

def validateReplaceValidatorInArray (validatorType : Nat) (keys : List Bytes)
    (current replacement : Bytes) : Except Error Unit := do
  let currentIndex ← fromOption (.currentValidatorNotFound validatorType current)
    (findValidatorIndex crypto keys current)
  match findValidatorIndex crypto keys replacement with
  | none => return ()
  | some replacementIndex =>
    ensure (replacementIndex = currentIndex)
      (.duplicateValidatorKey currentIndex replacementIndex replacement)

def doReplaceValidatorInArray (keys : List Bytes) (current replacement : Bytes) :
    Except Error (List Bytes) := do
  let currentIndex ← fromOption .panic (findValidatorIndex crypto keys current)
  return keys.set currentIndex replacement

/-! ## Who has to sign -/

structure ExpectedSigners where
  processor : Bytes
  approvers : List Bytes
  neededApprovers : U16

/-- The stored processor and approvers, except that the keys a rotation brings in sign in place of
the ones it takes out. -/
def expectedSignersForAction (set : ValidatorSet) (actionData : Bytes) :
    Except Error ExpectedSigners := do
  let expected : ExpectedSigners := ⟨set.processor, set.approvers, set.neededApprovers⟩
  let (actionType, data) ← decodeAction actionData
  if actionType = actionNewSet then
    let new ← decodeNewSet data
    return ⟨new.set.processor, new.set.approvers, new.set.neededApprovers⟩
  if actionType ≠ actionSelfReplace then
    return expected
  let { validatorType, current, replacement } ← decodeSelfReplace data
  if validatorType = validatorProcessor then
    return { expected with processor := replacement }
  if validatorType = validatorListener then
    return expected
  if validatorType = validatorApprover then
    match findValidatorIndex crypto set.approvers current with
    | none => return expected
    | some currentIndex =>
      return { expected with approvers := set.approvers.set currentIndex replacement }
  throw (.invalidValidatorType validatorType)

/-! ## Self-replacement -/

def validateSelfReplace (set : ValidatorSet) (action : SelfReplace) : Except Error Unit := do
  let { validatorType, current, replacement } := action
  ensure (isValidSecp256k1Pubkey replacement) (.invalidValidatorKey 0 replacement)
  let _ ← validatorAddress crypto replacement
  if validatorType = validatorProcessor then
    ensure (crypto.keccak256 current = crypto.keccak256 set.processor)
      (.currentValidatorNotFound validatorType current)
  else if validatorType = validatorListener then
    validateReplaceValidatorInArray crypto validatorType set.listeners current replacement
  else if validatorType = validatorApprover then
    validateReplaceValidatorInArray crypto validatorType set.approvers current replacement
  else throw (.invalidValidatorType validatorType)

def doSelfReplace (set : ValidatorSet) (action : SelfReplace) : Except Error ValidatorSet := do
  let { validatorType, current, replacement } := action
  if validatorType = validatorProcessor then
    return { set with processor := replacement }
  if validatorType = validatorListener then
    let listeners ← doReplaceValidatorInArray crypto set.listeners current replacement
    return { set with listeners }
  if validatorType = validatorApprover then
    let approvers ← doReplaceValidatorInArray crypto set.approvers current replacement
    return { set with approvers }
  throw (.invalidValidatorType validatorType)

def executeSelfReplace (set : ValidatorSet) (data : Bytes) : Except Error ValidatorSet := do
  let action ← decodeSelfReplace data
  validateSelfReplace crypto set action
  doSelfReplace crypto set action

/-! ## New validator sets -/

/-- What the loop over the approvals has found: the distinct signers, and how many of them are in
each group of the stored set. -/
structure Approvals where
  seen : List Address
  hasProcessor : Bool
  listeners : Nat
  approvers : Nat

/-- The loop over the approvals of a new set. Every signer is new and in one of the groups. -/
def collectApprovals (set : ValidatorSet) (processorSigner : Address) (renderedHash : Word) :
    Approvals → List Bytes → Except Error Approvals
  | found, [] => .ok found
  | found, approval :: approvals => do
    let signer ← recoverSigner crypto renderedHash approval
    ensure (signer ∉ found.seen) (.duplicateNewSetApprovalSignature signer)
    let isProcessor := decide (signer = processorSigner)
    let isListener ← containsSigner crypto signer set.listeners
    let isApprover ← containsSigner crypto signer set.approvers
    ensure (isProcessor ∨ isListener ∨ isApprover) (.invalidNewSetApprovalSignature signer)
    collectApprovals set processorSigner renderedHash
      { seen := found.seen ++ [signer]
        hasProcessor := found.hasProcessor || isProcessor
        listeners := found.listeners + isListener.toNat
        approvers := found.approvers + isApprover.toNat } approvals

def verifyNewSetApprovals (set : ValidatorSet) (rendered : Bytes) (approvals : List Bytes) :
    Except Error Unit := do
  let renderedHash := crypto.sha256 rendered
  let processorSigner ← validatorAddress crypto set.processor
  let found ← collectApprovals crypto set processorSigner renderedHash ⟨[], false, 0, 0⟩ approvals
  let groupApprovals := found.hasProcessor.toNat +
    (decide (set.neededListeners.val ≤ found.listeners)).toNat +
    (decide (set.neededApprovers.val ≤ found.approvers)).toNat
  ensure (2 ≤ groupApprovals) (.insufficientNewSetGroupSignatures 2 groupApprovals)

def executeNewSet (set : ValidatorSet) (data : Bytes) : Except Error ValidatorSet := do
  let new ← decodeNewSet data
  -- The third layer of signatures: the old validators approved the rendered set.
  verifyNewSetApprovals crypto set new.rendered new.approvals
  setValidatorSet crypto new.set

/-! ## Validation and execution -/

def validateActionForExecution (set : ValidatorSet) (actionData : Bytes) : Except Error Unit := do
  let (actionType, data) ← decodeAction actionData
  if actionType = actionSelfReplace then
    let action ← decodeSelfReplace data
    validateSelfReplace crypto set action
  else if actionType = actionNewSet then
    let new ← decodeNewSet data
    verifyNewSetApprovals crypto set new.rendered new.approvals
  else if actionType = actionExecute then
    let _ ← decodeExecuteCall data
    return ()
  else throw (.invalidActionType actionType)

/-- The call to another contract; `call` says whether it succeeds. The guard against reentrancy
keeps the callee from changing the bridge. -/
def executeCall (call : ExecuteCall → Bool) (data : Bytes) : Except Error Unit := do
  let action ← decodeExecuteCall data
  ensure (call action = true) (.executeCallFailed action.target action.value action.callData)

def executeAction (call : ExecuteCall → Bool) (set : ValidatorSet) (actionData : Bytes) :
    Except Error ValidatorSet := do
  let (actionType, data) ← decodeAction actionData
  if actionType = actionExecute then
    executeCall call data
    return set
  if actionType = actionSelfReplace then
    executeSelfReplace crypto set data
  else if actionType = actionNewSet then
    executeNewSet crypto set data
  else throw (.invalidActionType actionType)

end

end Kolme.Ethereum
