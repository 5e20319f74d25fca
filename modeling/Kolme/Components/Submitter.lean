import Kolme.Core.State
import Kolme.Lib.Exec

/-!
# The submitter

The submitter of a kind of chains creates their bridge contracts and sends them the actions that
the processor signed. It does one thing at a time: a contract that is needed comes first, then the
first chain that has a pending action.
-/

namespace Kolme

open Exec

/-! ## Kinds of chains -/

inductive EthereumChain
  | mainnet | sepolia | local
deriving DecidableEq

namespace ExternalChain

def toCosmosChain : ExternalChain → Option CosmosChain
  | osmosisTestnet => some .osmosisTestnet
  | neutronTestnet => some .neutronTestnet
  | osmosisLocal => some .osmosisLocal
  | _ => none

def toSolanaChain : ExternalChain → Option SolanaChain
  | solanaMainnet => some .mainnet
  | solanaTestnet => some .testnet
  | solanaDevnet => some .devnet
  | solanaLocal => some .local
  | _ => none

def toEthereumChain : ExternalChain → Option EthereumChain
  | ethereumMainnet => some .mainnet
  | ethereumSepolia => some .sepolia
  | ethereumLocal => some .local
  | _ => none

end ExternalChain

def EthereumChain.toExternalChain : EthereumChain → ExternalChain
  | mainnet => .ethereumMainnet
  | sepolia => .ethereumSepolia
  | «local» => .ethereumLocal

/-! ## What is to be done -/

/-- A contract that is needed. -/
inductive GenesisAction
  | instantiateCosmos (chain : CosmosChain) (codeId : U64) (validatorSet : ValidatorSet)
  | instantiateSolana (chain : SolanaChain) (programId : String) (validatorSet : ValidatorSet)
  | instantiateEthereum (chain : EthereumChain) (validatorSet : ValidatorSet)

namespace FrameworkState

/-- The loop over the chains. -/
def nextGenesisAction (set : ValidatorSet) :
    List (ExternalChain × ChainState) → Except Error (Option GenesisAction)
  | [] => .ok none
  | (chain, state) :: rest =>
    match state.config.bridge with
    | .neededCosmosBridge codeId => do
      let chain ← Except.fromOption .panic chain.toCosmosChain
      return some (.instantiateCosmos chain codeId set)
    | .neededSolanaBridge programId => do
      let chain ← Except.fromOption .panic chain.toSolanaChain
      return some (.instantiateSolana chain programId set)
    | .neededEthereumBridge => do
      let chain ← Except.fromOption .panic chain.toEthereumChain
      return some (.instantiateEthereum chain set)
    | .deployed _ => nextGenesisAction set rest

def getNextGenesisAction (self : FrameworkState) : Except Error (Option GenesisAction) :=
  nextGenesisAction self.validatorSet self.chains.toList

def getNextBridgeAction (self : FrameworkState) (chain : ExternalChain) :
    Except Error (Option (BridgeActionId × PendingBridgeAction)) := do
  let state ← self.getChain chain
  return state.pendingActions.first?

end FrameworkState

/-! ## Clients -/

/-- The keys of a submitter, and with them the kind of chains that it handles. -/
inductive ChainArgs
  | cosmos (seedPhrase : String)
  | solana (keypair : List UInt8) (feePerCu : Option U64)
  | ethereum (signer : List UInt8)
  | passThrough (port : U16)

def ChainArgs.canHandle (self : ChainArgs) (chain : ExternalChain) : Bool :=
  match self with
  | cosmos _ => chain.toCosmosChain.isSome
  | solana _ _ => chain.toSolanaChain.isSome
  | ethereum _ => chain.toEthereumChain.isSome
  | passThrough _ => chain = .passThrough

/-- What the submitter asks of the client of a chain. -/
inductive ClientCall
  | cosmosInstantiate (cosmos : CosmosChain) (seedPhrase : String) (codeId : U64)
    (set : ValidatorSet)
  | cosmosExecute (cosmos : CosmosChain) (seedPhrase contract : String)
    (processor : SignatureWithRecovery) (approvals : SortedMap PublicKey SignatureWithRecovery)
    (payload : String)
  | solanaInstantiate (client : SolanaChain) (keypair : List UInt8) (programId : String)
    (set : ValidatorSet)
  | solanaExecute (client : SolanaChain) (keypair : List UInt8) (programId : String)
    (processor : SignatureWithRecovery) (approvals : SortedMap PublicKey SignatureWithRecovery)
    (payload : String) (feePerCu : Option U64)
  | ethereumInstantiate (chain : EthereumChain) (signer : List UInt8) (set : ValidatorSet)
  | ethereumExecute (chain : EthereumChain) (signer : List UInt8) (contract : String)
    (processor : SignatureWithRecovery) (approvals : SortedMap PublicKey SignatureWithRecovery)
    (payload : String)
  | passThroughExecute (port : U16) (processor : SignatureWithRecovery)
    (approvals : SortedMap PublicKey SignatureWithRecovery) (payload : String)

/-! ## The component -/

/-- Component which submits necessary transactions to the blockchain. -/
structure Submitter where
  args : ChainArgs
  /-- Keep track of which genesis contracts we've already created. -/
  genesisCreated : SortedMap ExternalChain String
  lastSubmitted : SortedMap ExternalChain BridgeActionId
  /-- What was asked of the clients. -/
  calls : List ClientCall

namespace Submitter

variable (client : ClientCall → Except Error String) (fs : FrameworkState)

/-- Ask the client of a chain, for an address or the hash of a transaction. -/
def call (request : ClientCall) : Exec Error Submitter String := fun s =>
  (client request, { s with calls := s.calls ++ [request] })

/-- Instantiate the contract of a chain, once. -/
def instantiateOnce (chain : ExternalChain) (request : ClientCall)
    (contract : String → String) : Exec Error Submitter Unit := do
  let self ← get
  if self.genesisCreated.contains chain then return ()
  else
    let addr ← call client request
    modify fun s => { s with genesisCreated := s.genesisCreated.insert chain (contract addr) }

def handleGenesis (genesisAction : GenesisAction) : Exec Error Submitter Unit := do
  let self ← get
  match genesisAction, self.args with
  | .instantiateCosmos chain codeId set, .cosmos seedPhrase =>
    instantiateOnce client chain.toExternalChain (.cosmosInstantiate chain seedPhrase codeId set) id
  | .instantiateSolana chain programId set, .solana keypair _ =>
    instantiateOnce client chain.toExternalChain (.solanaInstantiate chain keypair programId set)
      fun _ => programId
  | .instantiateEthereum chain set, .ethereum signer =>
    instantiateOnce client chain.toExternalChain (.ethereumInstantiate chain signer set) id
  | _, _ => return ()

/-- The call that executes an action of a chain, if the submitter handles the chain. -/
def executeCall (args : ChainArgs) (chain : ExternalChain) (contract : String)
    (processor : SignatureWithRecovery) (approvals : SortedMap PublicKey SignatureWithRecovery)
    (payload : String) : Except Error (Option ClientCall) :=
  match args with
  | .cosmos seedPhrase => .ok (chain.toCosmosChain.map fun cosmosChain =>
      .cosmosExecute cosmosChain seedPhrase contract processor approvals payload)
  | .solana keypair feePerCu => .ok (chain.toSolanaChain.map fun solanaChain =>
      .solanaExecute solanaChain keypair contract processor approvals payload feePerCu)
  | .passThrough port => do
    Except.ensure (chain = .passThrough) (.conditionFailed "chain == ExternalChain::PassThrough")
    return some (.passThroughExecute port processor approvals payload)
  | .ethereum signer => .ok (chain.toEthereumChain.map fun ethereumChain =>
      .ethereumExecute ethereumChain signer contract processor approvals payload)

/-- The action was submitted before. -/
def alreadySubmitted (self : Submitter) (chain : ExternalChain) (actionId : BridgeActionId) :
    Bool :=
  match self.lastSubmitted.get? chain with
  | some last => actionId ≤ last
  | none => false

def handleBridgeAction (actionId : BridgeActionId) (chain : ExternalChain)
    (action : PendingBridgeAction) : Exec Error Submitter Unit :=
  match action.processor with
  | none => return ()
  | some processor => do
    let self ← get
    if self.alreadySubmitted chain actionId then return ()
    else
      let state ← lift (fs.getChain chain)
      match state.config.bridge with
      | .neededCosmosBridge _ | .neededSolanaBridge _ | .neededEthereumBridge => return ()
      | .deployed contract =>
        match ← lift (executeCall self.args chain contract processor action.approvals
          action.payload) with
        | none => return ()
        | some request =>
          let _txHash ← call client request
          modify fun s => { s with lastSubmitted := s.lastSubmitted.insert chain actionId }

/-- The loop over the chains. -/
def submitNext : List ExternalChain → Exec Error Submitter Unit
  | [] => return ()
  | chain :: chains => do
    match ← lift (fs.getNextBridgeAction chain) with
    | some (actionId, action) => handleBridgeAction client fs actionId chain action
    | none => submitNext chains

/-- Submit 0 transactions (if nothing is needed) or the next event's transactions. -/
def submitZeroOrOne (chains : List ExternalChain) : Exec Error Submitter Unit := do
  match ← lift fs.getNextGenesisAction with
  | some genesisAction => handleGenesis client genesisAction
  | none => submitNext client fs chains

end Submitter

end Kolme
