import Kolme.Lib.Machine
import Kolme.Contracts.Solana.Solbox

/-!
# The Solana bridge program

The instructions of the bridge program and the program as a state machine over the account that
stores its state. System calls, the JSON and base64 libraries and the calls of other programs are
collected in `Sys`. An instruction that fails changes nothing.

Every instruction loads the state from its account and stores it again; the arithmetic on the
counters is checked.
-/

namespace Kolme.Solana

open Except

abbrev Hash := Fin (2 ^ 256)

/-- What the program calls outside of itself, besides the account runtime. -/
structure Sys extends Runtime where
  sha256 : String → Hash
  /-- The public key that made a signature over a hash, or the error code of the system call. -/
  solSecp256k1Recover : Hash → (recid : UInt8) → Signature → Except Nat PublicKeyUncompressed
  base64Decode : String → Option Bytes
  selfReplaceFromJson : String → Option SelfReplace
  validatorSetFromJson : String → Option ValidatorSet
  /-- The call of another program; it cannot write to the accounts of this one. -/
  invoke : ExecuteAction → List AccountInfo → Except ProgramError Unit

namespace InitIxError

def validatorSetError : ProgramError := .custom 0

end InitIxError

namespace RegularIxError

def pubkeySignatureMismatch : ProgramError := .custom 4

end RegularIxError

namespace SignedIxError

def insufficientSignatures : ProgramError := .custom 0
def duplicateApproverKey : ProgramError := .custom 1
def processorKeyMismatch : ProgramError := .custom 2
def incorrectOutgoingId : ProgramError := .custom 3
def accountMetaAndPassedAccountsMismatch : ProgramError := .custom 4
def invalidBase64Payload : ProgramError := .custom 5
def invalidSelfReplace : ProgramError := .custom 6
def jsonDeserialize : ProgramError := .custom 7

end SignedIxError

namespace Secp256k1RecoverError

def signatureNotNormalized : ProgramError := .custom 1003

/-- The errors of the system call; any other code panics. -/
def ofErrno : Nat → ProgramError
  | 1 => .custom 1000
  | 2 => .custom 1001
  | 3 => .custom 1002
  | _ => .panic

end Secp256k1RecoverError

/-- The discriminant of the state account. -/
def statePda : UInt8 := 0

def stateDerivation : PdaDerivation := ⟨[stateSeed], none⟩

/-- A checked increment. -/
def increment (n : U64) : Except ProgramError U64 :=
  if h : n.val + 1 < 256 ^ 8 then .ok ⟨n.val + 1, h⟩ else .error .panic

variable (sys : Sys) (programId : Pubkey)

/-- The compressed key that made the signature, which has to be normalized. -/
def secp256k1Recover (hash : Hash) (signature : SignatureWithRecovery) :
    Except ProgramError PublicKey := do
  ensure (signature.sig.isNormalized = true) Secp256k1RecoverError.signatureNotNormalized
  let uncompressed ← (sys.solSecp256k1Recover hash signature.recid signature.sig).mapError
    Secp256k1RecoverError.ofErrno
  return uncompressed.toSec1Bytes

/-! ## Signatures -/

/-- The expected approvers among the signers; other signers are skipped. -/
def collectApprovers (hash : Hash) (expectedApprovers : Finset PublicKey) :
    List SignatureWithRecovery → Except ProgramError (List PublicKey)
  | [] => .ok []
  | a :: approvers => do
    let key ← secp256k1Recover sys hash a
    let keys ← collectApprovers hash expectedApprovers approvers
    return if key ∈ expectedApprovers then key :: keys else keys

def verifySignatures (hash : Hash) (processor : SignatureWithRecovery)
    (expectedProcessor : PublicKey) (approvers : List SignatureWithRecovery)
    (expectedApprovers : Finset PublicKey) (neededApprovers : U16) : Except ProgramError Unit := do
  let recoveredKey ← secp256k1Recover sys hash processor
  ensure (recoveredKey = expectedProcessor) SignedIxError.processorKeyMismatch
  let keys ← collectApprovers sys hash expectedApprovers approvers
  ensure keys.Nodup SignedIxError.duplicateApproverKey
  ensure (neededApprovers.val ≤ keys.length) SignedIxError.insufficientSignatures

/-- What the loop over the approvals of a new set has found. -/
structure Tally where
  used : List PublicKey
  processor : Bool
  listeners : Nat
  approvers : Nat
deriving DecidableEq

/-- A sixteen-bit counter, incremented when `found` holds. -/
def countIf (found : Prop) [Decidable found] (counter : Nat) : Except ProgramError Nat :=
  if found then do
    ensure (counter + 1 < 2 ^ 16) .panic
    return counter + 1
  else return counter

def tallyApprovals (set : ValidatorSet) (hash : Hash) :
    Tally → List SignatureWithRecovery → Except ProgramError Tally
  | tally, [] => .ok tally
  | tally, signature :: approvals => do
    let validator ← secp256k1Recover sys hash signature
    ensure (¬(set.processor = validator ∧ tally.processor = true)) .panic
    let listeners ← countIf (validator ∈ set.listeners) tally.listeners
    let approvers ← countIf (validator ∈ set.approvers) tally.approvers
    tallyApprovals set hash
      { used := tally.used ++ [validator]
        processor := tally.processor || decide (set.processor = validator)
        listeners
        approvers } approvals

/-- The number of groups of the set that the tally fills. -/
def Tally.count (set : ValidatorSet) (tally : Tally) : Nat :=
  tally.processor.toNat + (decide (set.neededListeners.val ≤ tally.listeners)).toNat +
    (decide (set.neededApprovers.val ≤ tally.approvers)).toNat

/-! ## Instructions -/

def initializeIx (payer stateAcc : AccountInfo) (set : ValidatorSet) :
    Except ProgramError AccountInfo := do
  ensure (payer.isSigner = true) .invalidArgument
  ensure (stateAcc.isWritable = true) .invalidArgument
  set.validate.mapError fun _ => InitIxError.validatorSetError
  -- Events start at ID 1, since the instantiation itself is event 0.
  let state : State := { set, nextEventId := 1, nextActionId := 0 }
  let (pda, _, created) ← initPda sys.toRuntime stateCodec programId payer stateAcc
    stateDerivation state
  pda.serializeInto stateCodec statePda created

/-- Every registered key signed the sender's address, which stands in for a hash. -/
def validateKeys (wallet : Pubkey) : List KeyRegistration → Except ProgramError Unit
  | [] => .ok ()
  | r :: keys => do
    let recoveredKey ← secp256k1Recover sys (Fin.ofNat _ wallet.val) r.signature
    ensure (recoveredKey = r.key) RegularIxError.pubkeySignatureMismatch
    validateKeys wallet keys

/-- A deposit. The transfers of the tokens do not touch the state account; `funds` is their
outcome. -/
def regular (sender stateAcc : AccountInfo) (funds : Except ProgramError (List Token))
    (instructionData : Bytes) : Except ProgramError (AccountInfo × BridgeMessage) := do
  let data ← fromOption .borshIoError (regularMsgIxDataCodec.decodeAll instructionData)
  ensure (sender.isSigner = true) .invalidArgument
  ensure (stateAcc.isWritable = true) .invalidArgument
  let funds ← funds
  validateKeys sys sender.key data.keys
  let pda ← loadPda sys.toRuntime stateCodec statePda programId stateAcc stateDerivation.seeds
  let id := pda.data.nextEventId
  let nextEventId ← increment id
  let pda := { pda with data := { pda.data with nextEventId } }
  let stateAcc ← pda.serializeInto stateCodec statePda stateAcc
  return (stateAcc, ⟨id, sender.key, .regular funds (data.keys.map (·.key))⟩)

/-- The call of an action, made with exactly the accounts the action names. -/
def executeAction (action : ExecuteAction) (ixAccounts : List AccountInfo) :
    Except ProgramError Unit := do
  ensure (action.accounts.length = ixAccounts.length)
    SignedIxError.accountMetaAndPassedAccountsMismatch
  sys.invoke action ixAccounts

/-- The set after a self-replacement, and the signatures it needs. -/
def selfReplace (set : ValidatorSet) (hash : Hash) (data : SignedMsgIxData) (rendered : String)
    (signature : SignatureWithRecovery) : Except ProgramError ValidatorSet := do
  let { validatorType, replacement } ← fromOption SignedIxError.jsonDeserialize
    (sys.selfReplaceFromJson rendered)
  let validator ← secp256k1Recover sys (sys.sha256 rendered) signature
  match validatorType with
  | .processor =>
    ensure (validator = set.processor) SignedIxError.invalidSelfReplace
    verifySignatures sys hash data.processor replacement data.approvers set.approvers
      set.neededApprovers
    return { set with processor := replacement }
  | .listener =>
    ensure (¬(validator ∉ set.listeners ∨ replacement ∈ set.listeners))
      SignedIxError.invalidSelfReplace
    verifySignatures sys hash data.processor set.processor data.approvers set.approvers
      set.neededApprovers
    return { set with listeners := ValidatorSet.replaceKey set.listeners validator replacement }
  | .approver =>
    ensure (¬(validator ∉ set.approvers ∨ replacement ∈ set.approvers))
      SignedIxError.invalidSelfReplace
    let approvers := ValidatorSet.replaceKey set.approvers validator replacement
    verifySignatures sys hash data.processor set.processor data.approvers approvers
      set.neededApprovers
    return { set with approvers }

/-- The new set, approved by two groups of the stored one and signed by its own validators. -/
def newSet (set : ValidatorSet) (hash : Hash) (data : SignedMsgIxData) (rendered : String)
    (approvals : List SignatureWithRecovery) : Except ProgramError ValidatorSet := do
  let newSet ← fromOption SignedIxError.jsonDeserialize (sys.validatorSetFromJson rendered)
  let tally ← tallyApprovals sys set (sys.sha256 rendered) ⟨[], false, 0, 0⟩ approvals
  ensure tally.used.Nodup SignedIxError.duplicateApproverKey
  ensure (2 ≤ tally.count set) SignedIxError.insufficientSignatures
  verifySignatures sys hash data.processor newSet.processor data.approvers newSet.approvers
    newSet.neededApprovers
  return newSet

/-- The set after a signed action. -/
def applyAction (set : ValidatorSet) (hash : Hash) (data : SignedMsgIxData)
    (ixAccounts : List AccountInfo) : SignedAction → Except ProgramError ValidatorSet
  | .execute action => do
    verifySignatures sys hash data.processor set.processor data.approvers set.approvers
      set.neededApprovers
    -- The first account is the program to be invoked, the others are those of the action.
    ensure (1 ≤ ixAccounts.length) .notEnoughAccountKeys
    executeAction sys action (ixAccounts.drop 1)
    return set
  | .selfReplace rendered signature => selfReplace sys set hash data rendered signature
  | .newSet rendered approvals => newSet sys set hash data rendered approvals

def signed (sender stateAcc systemAcc : AccountInfo) (ixAccounts : List AccountInfo)
    (instructionData : Bytes) : Except ProgramError (AccountInfo × BridgeMessage) := do
  ensure (sender.isSigner = true) .invalidArgument
  ensure (stateAcc.isWritable = true) .invalidArgument
  ensure (systemAcc.key = systemId) .invalidArgument
  let data ← fromOption .borshIoError (signedMsgIxDataCodec.decodeAll instructionData)
  let pda ← loadPda sys.toRuntime stateCodec statePda programId stateAcc stateDerivation.seeds
  let payloadBytes ← fromOption SignedIxError.invalidBase64Payload (sys.base64Decode data.payload)
  let payload ← fromOption .borshIoError (payloadCodec.decodeAll payloadBytes)
  ensure (payload.id = pda.data.nextActionId) SignedIxError.incorrectOutgoingId
  let nextActionId ← increment pda.data.nextActionId
  let incomingId := pda.data.nextEventId
  let nextEventId ← increment pda.data.nextEventId
  let set ← applyAction sys pda.data.set (sys.sha256 data.payload) data ixAccounts payload.action
  let pda : PdaData State := { pda with data := { set, nextEventId, nextActionId } }
  let (_, stateAcc) ← pda.serializeIntoGrowable sys.toRuntime stateCodec statePda sender stateAcc
  return (stateAcc, ⟨incomingId, sender.key, .signed payload.id⟩)

/-! ## The program as a machine -/

/-- An instruction, with the accounts that are passed besides the state account. -/
inductive Call
  | regular (sender : AccountInfo) (funds : Except ProgramError (List Token)) (data : Bytes)
  | signed (sender systemAcc : AccountInfo) (ixAccounts : List AccountInfo) (data : Bytes)

def Call.perform (stateAcc : AccountInfo) :
    Call → Except ProgramError (AccountInfo × BridgeMessage)
  | .regular sender funds data => Solana.regular sys programId sender stateAcc funds data
  | .signed sender systemAcc ixAccounts data =>
    Solana.signed sys programId sender stateAcc systemAcc ixAccounts data

def machine : Machine AccountInfo Call ProgramError where
  step stateAcc call := do
    let (stateAcc', _) ← call.perform sys programId stateAcc
    return stateAcc'

end Kolme.Solana
