import Kolme.Core.State
import Kolme.Contracts.Ethereum.BridgeActions
import Kolme.Shared.Cosmos

/-!
# Listeners

What the listeners of all chains share: the event that is expected next, and what happens while a
contract is not deployed yet. A listener that sees the announcement of a contract checks the
contract and proposes a message that it is instantiated.

What is outside, the external chains and the transactions of others, is a `World`: the answers that
a listener gets at one moment.
-/

namespace Kolme

open Except

/-- Why a listener stops. -/
inductive ListenerError
  | codeIdMismatch (expected actual : U64) (contract : String)
  /-- "Bridge program {program} hasn't been initialized yet." -/
  | notInitialized (program : String)
  | deserialize (what : String)
  /-- "Ethereum contract {contract} has no bytecode deployed" -/
  | noBytecode (contract : String)
  /-- "{what} mismatch" -/
  | mismatch (what : String)
  /-- "Already have a deployed contract on {chain:?}" -/
  | alreadyDeployed (chain : ExternalChain)
  | chainNotSupported (chain : ExternalChain)
  /-- "No wait for pass-through contract is expected" -/
  | passThrough
  /-- "Unexpected Ethereum bridge event ID. Expected {expected}, got {actual}" -/
  | unexpectedEventId (expected actual : BridgeEventId)
  | conditionFailed (condition : String)
  /-- The connection to a provider is lost. -/
  | connection (text : String)
  /-- A request or a parser outside fails. -/
  | outside (text : String)
  | panic
deriving DecidableEq

/-- A listener's message, before it is signed and proposed. -/
structure Proposal where
  chain : ExternalChain
  eventId : BridgeEventId
  event : BridgeEvent
deriving DecidableEq

namespace Solana

structure Account where
  owner : Pubkey
  data : Bytes

end Solana

/-- The state of the chain and the answers from outside that a listener gets at one moment. -/
structure World where
  fs : FrameworkState
  getCosmos : ExternalChain → Except ListenerError Unit
  cosmosAddress : String → Except ListenerError String
  cosmosCodeId : (address : String) → Except ListenerError U64
  cosmosConfig : (address : String) → Except ListenerError Cosmos.State
  solanaPubkey : String → Except ListenerError Solana.Pubkey
  deriveStatePda : (programId : Solana.Pubkey) → Solana.Pubkey
  solanaAccount : Solana.Pubkey → Except ListenerError Solana.Account
  getEthereumClient : ExternalChain → Except ListenerError Unit
  ethereumAddress : String → Except ListenerError Ethereum.Address
  ethereumCode : Ethereum.Address → Except ListenerError Bytes
  ethereumConfig : Ethereum.Address → Except ListenerError Ethereum.State
  publicKeyFromBytes : Bytes → Except ListenerError PublicKey
  /-- What becomes of a transaction that is proposed. -/
  awaitTransaction : Proposal → Except ListenerError Unit

/-- The first pending event that the key has not attested, or else the next one. -/
def getNextBridgeEventId (state : ChainState) (key : PublicKey) : BridgeEventId :=
  match state.pendingEvents.toList.find? (fun p => key ∉ p.2.attestations) with
  | some (eventId, _) => eventId
  | none => state.nextEventId

/-! ## Sanity checks -/

variable (world : World) (info : GenesisInfo)

def Cosmos.sanityCheckContract (contract : String) (expectedCodeId : U64) :
    Except ListenerError Unit := do
  let contract ← world.cosmosAddress contract
  let actualCodeId ← world.cosmosCodeId contract
  ensure (actualCodeId = expectedCodeId) (.codeIdMismatch expectedCodeId actualCodeId contract)
  let { set, .. } ← world.cosmosConfig contract
  ensure (info.validatorSet.processor = set.processor)
    (.conditionFailed "info.validator_set.processor == processor")
  ensure (set.listeners = info.validatorSet.listeners)
    (.conditionFailed "listeners == info.validator_set.listeners")
  ensure (set.neededListeners = info.validatorSet.neededListeners)
    (.conditionFailed "needed_listeners == info.validator_set.needed_listeners")
  ensure (set.approvers = info.validatorSet.approvers)
    (.conditionFailed "approvers == info.validator_set.approvers")
  ensure (set.neededApprovers = info.validatorSet.neededApprovers)
    (.conditionFailed "needed_approvers == info.validator_set.needed_approvers")

def Solana.sanityCheckContract (program : String) : Except ListenerError Unit := do
  let programId ← world.solanaPubkey program
  let acc ← world.solanaAccount (world.deriveStatePda programId)
  ensure (¬(acc.owner ≠ programId ∨ acc.data.length < 2)) (.notInitialized program)
  -- The first two bytes are the discriminator and the bump seed.
  let { set, .. } ← fromOption (.deserialize "Solana bridge state")
    (Solana.stateCodec.decodeAll (acc.data.drop 2))
  ensure (info.validatorSet.processor = set.processor)
    (.conditionFailed "info.validator_set.processor == state.set.processor")
  ensure (info.validatorSet.listeners = set.listeners)
    (.conditionFailed "info.validator_set.listeners == state.set.listeners")
  ensure (info.validatorSet.approvers = set.approvers)
    (.conditionFailed "info.validator_set.approvers == state.set.approvers")
  ensure (info.validatorSet.neededListeners = set.neededListeners)
    (.conditionFailed "info.validator_set.needed_listeners == state.set.needed_listeners")
  ensure (info.validatorSet.neededApprovers = set.neededApprovers)
    (.conditionFailed "info.validator_set.needed_approvers == state.set.needed_approvers")

/-- The keys of a list, as a set. -/
def Ethereum.decodeValidatorKeys (keys : List Bytes) : Except ListenerError (Finset PublicKey) := do
  let keys ← keys.mapM world.publicKeyFromBytes
  return keys.toFinset

def Ethereum.sanityCheckContract (contract : String) : Except ListenerError Unit := do
  let address ← world.ethereumAddress contract
  let code ← world.ethereumCode address
  ensure (code ≠ []) (.noBytecode contract)
  let { validatorSet, .. } ← world.ethereumConfig address
  let processor ← world.publicKeyFromBytes validatorSet.processor
  ensure (processor = info.validatorSet.processor) (.mismatch "Ethereum processor key")
  let listeners ← Ethereum.decodeValidatorKeys world validatorSet.listeners
  ensure (listeners = info.validatorSet.listeners) (.mismatch "Ethereum listener set")
  ensure (validatorSet.neededListeners = info.validatorSet.neededListeners)
    (.mismatch "Ethereum needed listener quorum")
  let approvers ← Ethereum.decodeValidatorKeys world validatorSet.approvers
  ensure (approvers = info.validatorSet.approvers) (.mismatch "Ethereum approver set")
  ensure (validatorSet.neededApprovers = info.validatorSet.neededApprovers)
    (.mismatch "Ethereum needed approver quorum")

namespace Listener

/-! ## Contracts that are announced -/

/-- A message that was proposed, and the moment of it. -/
structure Proposed where
  world : World
  proposal : Proposal

/-- The check for the kind of the chain. The outer error stops the listener, the inner one is the
outcome of the check. -/
def checkContract (config : ChainConfig) (chain : ExternalChain) (contract : String) :
    Except ListenerError (Except ListenerError Unit) := do
  match chain.name with
  | .cosmos =>
    world.getCosmos chain
    let expectedCodeId ← match config.bridge with
      | .neededCosmosBridge codeId => .ok codeId
      | .neededSolanaBridge _ => .error .panic
      | .neededEthereumBridge => .error .panic
      | .deployed _ => .error (.alreadyDeployed chain)
    return Cosmos.sanityCheckContract world info contract expectedCodeId
  | .solana => return Solana.sanityCheckContract world info contract
  | .ethereum =>
    world.getEthereumClient chain
    return Ethereum.sanityCheckContract world info contract
  | .passThrough => .error .passThrough

/-- Sign and propose a message, and wait until it is in a block. -/
def proposeAwait (proposal : Proposal) : Exec ListenerError (List Proposed) Unit := do
  Exec.modify (· ++ [⟨world, proposal⟩])
  Exec.lift (world.awaitTransaction proposal)

def tryNewContract (key : PublicKey) (chain : ExternalChain) (contract : String) :
    Exec ListenerError (List Proposed) Unit := do
  let state ← Exec.fromOption .panic (world.fs.chains.get? chain)
  let next := getNextBridgeEventId state key
  if next ≠ 0 then pure ()
  else
    match state.config.bridge with
    | .deployed _ => Exec.throw (.alreadyDeployed chain)
    | _ =>
      -- A check that fails is logged.
      let _ ← Exec.lift (checkContract world info state.config chain contract)
      proposeAwait world ⟨chain, 0, .instantiated contract⟩

/-- The contracts of a kind of chain, once all of them are deployed. -/
def getContracts (fs : FrameworkState) (name : ChainName) :
    Option (List (ExternalChain × String)) :=
  go (fs.chains.toList.filter (·.1.name = name))
where
  go : List (ExternalChain × ChainState) → Option (List (ExternalChain × String))
    | [] => some []
    | (chain, state) :: chains =>
      match state.config.bridge with
      | .neededCosmosBridge _ | .neededSolanaBridge _ | .neededEthereumBridge => none
      | .deployed contract => do
        let contracts ← go chains
        some ((chain, contract) :: contracts)

/-- What a listener sees in one turn of its loop: the state at the start of it, and the messages of
the mempool after it has waited, each with the moment in which it gets to it. -/
structure Round (M : Type) where
  fs : FrameworkState
  messages : List (Message M × World)

/-- The messages of one turn. -/
def tryMessage {M : Type} (key : PublicKey) (name : ChainName) (entry : Message M × World) :
    Exec ListenerError (List Proposed) Unit :=
  match entry.1 with
  | .listener chain eventId (.instantiated contract) =>
    if chain.name ≠ name ∨ eventId ≠ 0 then pure ()
    else tryNewContract entry.2 info key chain contract
  | _ => pure ()

/-- The loop, as far as the given turns. It ends with the contracts, or waits for more. -/
def waitForContracts {M : Type} (key : PublicKey) (name : ChainName) :
    List (Round M) → Exec ListenerError (List Proposed) (Option (List (ExternalChain × String)))
  | [] => pure none
  | round :: rounds =>
    match getContracts round.fs name with
    | some contracts => pure (some contracts)
    | none => do
      Exec.forEach (tryMessage info key name) round.messages
      waitForContracts key name rounds

end Listener

end Kolme
