import Kolme.Lib.Machine
import Kolme.Lib.SortedMap
import Kolme.Shared.Cosmos

/-!
# The Cosmos bridge contract

Instantiation, deposits and the execution of signed actions, and the contract as a state machine.
The hash, the recovery of public keys and the JSON parsers come from outside and are collected in
`Api`. A call that fails changes nothing.
-/

namespace Kolme.Cosmos

open Except

abbrev Hash := Fin (2 ^ 256)

/-- What the contract calls of the host and of the JSON library. -/
structure Api where
  sha256 : String → Hash
  /-- The uncompressed public key that made a signature over a hash. -/
  secp256k1RecoverPubkey : Hash → Signature → (recid : UInt8) → Option Bytes
  payloadFromJson : String → Option PayloadWithId
  selfReplaceFromJson : String → Option SelfReplace
  validatorSetFromJson : String → Option ValidatorSet

inductive SignatureError
  | compress (source : CompressPublicKeyError)
  | invalidSignature (sig : Signature) (recid : UInt8)
deriving DecidableEq

inductive Error
  /-- A text is not the JSON of the expected type. -/
  | cosmwasm
  | signing (source : SignatureError)
  | noApproversProvided
  | insufficientApprovers (needed : U16) (provided : Nat)
  | incorrectActionId (expected received : BridgeActionId)
  | insufficientSignatures (needed provided : Nat)
  | duplicateKey (key : PublicKey)
  | publicKeyRecoveryMismatch (expected actual : PublicKey)
  | invalidSelfReplace (signedBy replacement : PublicKey) (validatorType : ValidatorType)
  | validatorSetError (source : ValidatorSetError)
  /-- An assertion of the contract fails. -/
  | panic
deriving DecidableEq

structure MessageInfo where
  sender : String
  funds : List Coin
deriving DecidableEq

/-- Everything the contract stores. -/
structure Storage where
  state : State
  events : SortedMap BridgeEventId BridgeEventMessage
deriving DecidableEq

/-- The event of a successful call and the messages it sends. -/
structure Response where
  eventId : BridgeEventId
  event : BridgeEventMessage
  messages : List CosmosMsg
deriving DecidableEq

variable (api : Api)

/-- The compressed key that made the signature. -/
def validateSignature (hash : Hash) (signature : SignatureWithRecovery) :
    Except Error PublicKey := do
  let uncompressed ← fromOption (.signing (.invalidSignature signature.sig signature.recid))
    (api.secp256k1RecoverPubkey hash signature.sig signature.recid)
  (compressPublicKey uncompressed).mapError fun source => .signing (.compress source)

def instantiate (set : ValidatorSet) : Except Error Storage := do
  set.validate.mapError .validatorSetError
  ensure (set.approvers ≠ ∅) .noApproversProvided
  -- Events start at ID 1, since the instantiation itself is event 0.
  return { state := { set, nextEventId := 1, nextActionId := 0 }, events := ∅ }

/-! ## Deposits -/

/-- Every registered key signed the sender's address. -/
def validateKeys (hash : Hash) : List KeyRegistration → Except Error Unit
  | [] => .ok ()
  | r :: keys => do
    let recoveredKey ← validateSignature api hash r.signature
    ensure (recoveredKey = r.key) (.publicKeyRecoveryMismatch r.key recoveredKey)
    validateKeys hash keys

def regular (storage : Storage) (info : MessageInfo) (keys : List KeyRegistration) :
    Except Error (Storage × Response) := do
  validateKeys api (api.sha256 info.sender) keys
  let id := storage.state.nextEventId
  let message : BridgeEventMessage := .regular info.sender info.funds (keys.map (·.key))
  return ({ state := { storage.state with nextEventId := id + 1 }
            events := storage.events.insert id message },
    { eventId := id, event := message, messages := [] })

/-! ## Signed actions -/

inductive ParsedAction
  | cosmos (messages : List CosmosMsg)
  | selfReplace (validatorType : ValidatorType) (old new : PublicKey)
  | newSet (set : ValidatorSet)

/-- Who has to sign an action, and what it does. -/
structure Expected where
  processor : PublicKey
  approvers : Finset PublicKey
  neededApprovers : U16
  action : ParsedAction

/-- What the loop over the approvals of a new set has found. -/
structure Tally where
  used : Finset PublicKey
  processor : Bool
  listeners : U16
  approvers : U16
deriving DecidableEq

def tallyApprovals (set : ValidatorSet) (hash : Hash) :
    Tally → List SignatureWithRecovery → Except Error Tally
  | tally, [] => .ok tally
  | tally, signature :: approvals => do
    let validator ← validateSignature api hash signature
    ensure (validator ∉ tally.used) (.duplicateKey validator)
    ensure (¬(set.processor = validator ∧ tally.processor = true)) .panic
    tallyApprovals set hash
      { used := insert validator tally.used
        processor := tally.processor || decide (set.processor = validator)
        listeners := if validator ∈ set.listeners then tally.listeners + 1 else tally.listeners
        approvers := if validator ∈ set.approvers then tally.approvers + 1 else tally.approvers }
      approvals

/-- The number of groups of the set that the tally fills. -/
def Tally.count (set : ValidatorSet) (tally : Tally) : Nat :=
  tally.processor.toNat + (decide (set.neededListeners ≤ tally.listeners)).toNat +
    (decide (set.neededApprovers ≤ tally.approvers)).toNat

/-- A self-replacement, checked against the set it changes: the replaced key signed the text, and
the new key takes its place among those who have to sign. -/
def expectSelfReplace (set : ValidatorSet) (validator : PublicKey) (replace : SelfReplace) :
    Except Error Expected := do
  let { validatorType, replacement } := replace
  let action := ParsedAction.selfReplace validatorType validator replacement
  match validatorType with
  | .listener =>
    ensure (¬(validator ∉ set.listeners ∨ replacement ∈ set.listeners))
      (.invalidSelfReplace validator replacement validatorType)
    return ⟨set.processor, set.approvers, set.neededApprovers, action⟩
  | .processor =>
    ensure (validator = set.processor) (.invalidSelfReplace validator replacement validatorType)
    return ⟨replacement, set.approvers, set.neededApprovers, action⟩
  | .approver =>
    ensure (¬(validator ∉ set.approvers ∨ replacement ∈ set.approvers))
      (.invalidSelfReplace validator replacement validatorType)
    return ⟨set.processor, ValidatorSet.replaceKey set.approvers validator replacement,
      set.neededApprovers, action⟩

/-- Who has to sign the action: the stored validators, or those a rotation brings in, once the
rotation itself has been found to be signed. -/
def expect (set : ValidatorSet) : CosmosAction → Except Error Expected
  | .cosmos messages =>
    return ⟨set.processor, set.approvers, set.neededApprovers, .cosmos messages⟩
  | .selfReplace rendered signature => do
    let validator ← validateSignature api (api.sha256 rendered) signature
    let replace ← fromOption .cosmwasm (api.selfReplaceFromJson rendered)
    expectSelfReplace set validator replace
  | .newSet rendered approvals => do
    let newSet ← fromOption .cosmwasm (api.validatorSetFromJson rendered)
    let tally ← tallyApprovals api set (api.sha256 rendered) ⟨∅, false, 0, 0⟩ approvals
    ensure (2 ≤ tally.count set) (.insufficientSignatures 2 (tally.count set))
    return ⟨newSet.processor, newSet.approvers, newSet.neededApprovers, .newSet newSet⟩

/-- The distinct expected approvers among the signers; other signers are skipped. -/
def collectApprovers (hash : Hash) (expected : Finset PublicKey) :
    (used : List PublicKey) → List SignatureWithRecovery → Except Error (List PublicKey)
  | used, [] => .ok used
  | used, approver :: approvers => do
    let key ← validateSignature api hash approver
    if key ∉ expected then
      collectApprovers hash expected used approvers
    else
      ensure (key ∉ used) (.duplicateKey key)
      collectApprovers hash expected (used ++ [key]) approvers

/-- The set after the action, and the messages the action sends. -/
def ParsedAction.apply (set : ValidatorSet) :
    ParsedAction → Except Error (ValidatorSet × List CosmosMsg)
  | .cosmos messages => return (set, messages)
  | .selfReplace .listener old new =>
    return ({ set with listeners := ValidatorSet.replaceKey set.listeners old new }, [])
  | .selfReplace .processor old new => do
    -- Already checked above, but why not
    ensure (set.processor = old) .panic
    return ({ set with processor := new }, [])
  | .selfReplace .approver old new =>
    return ({ set with approvers := ValidatorSet.replaceKey set.approvers old new }, [])
  | .newSet new => return (new, [])

def signed (storage : Storage) (info : MessageInfo) (processor : SignatureWithRecovery)
    (approvers : List SignatureWithRecovery) (payloadString : String) :
    Except Error (Storage × Response) := do
  let { id, action } ← fromOption .cosmwasm (api.payloadFromJson payloadString)
  let state := storage.state
  ensure (id = state.nextActionId) (.incorrectActionId state.nextActionId id)
  let incomingId := state.nextEventId
  let hash := api.sha256 payloadString
  let expected ← expect api state.set action
  let processor ← validateSignature api hash processor
  ensure (processor = expected.processor) (.publicKeyRecoveryMismatch expected.processor processor)
  let used ← collectApprovers api hash expected.approvers [] approvers
  ensure (expected.neededApprovers.val ≤ used.length)
    (.insufficientApprovers expected.neededApprovers used.length)
  let message : BridgeEventMessage := .signed info.sender id
  let (set, messages) ← expected.action.apply state.set
  return ({ state := { set, nextEventId := incomingId + 1, nextActionId := id + 1 }
            events := storage.events.insert incomingId message },
    { eventId := incomingId, event := message, messages })

/-! ## The contract as a machine -/

def execute (storage : Storage) (info : MessageInfo) : ExecuteMsg →
    Except Error (Storage × Response)
  | .regular keys => regular api storage info keys
  | .signed processor approvers payload => signed api storage info processor approvers payload

def machine : Machine Storage (MessageInfo × ExecuteMsg) Error where
  step storage call := do
    let (storage', _) ← execute api storage call.1 call.2
    return storage'

end Kolme.Cosmos
