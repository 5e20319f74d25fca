import Kolme.Core.State
import Kolme.Lib.Machine

/-!
# Executing transactions

The handlers of all messages, run in an execution context that an error leaves half changed, and
the node as a machine whose calls are signed transactions. A transaction that fails changes
nothing.

An app is a program that may call back into the context and may go on after a call that fails; a
panic ends it. `World` is whatever else the app's program depends on.
-/

namespace Kolme

open Exec

/-- Specifies how block data should be handled during transaction execution. -/
inductive BlockDataHandling
  /-- No prior block data is available or required for this transaction. -/
  | noPriorData
  /-- The loads retrieved from a block, and how they are validated. -/
  | priorData (loads : List BlockDataLoad) (validation : DataLoadValidation)

/-- Every piece of data loaded during execution must be used during validation. -/
def BlockDataHandling.finish : BlockDataHandling → Except Error Unit
  | noPriorData => .ok ()
  | priorData loads _ => Except.ensure (loads = []) (.conditionFailed "loads.is_empty()")

/-- Execution context for a single transaction, with the elementary changes made so far. -/
structure ExecutionContext (S : Type) where
  frameworkState : FrameworkState
  appState : S
  logs : List (List String)
  loads : List BlockDataLoad
  blockDataHandling : BlockDataHandling
  /-- Who signed the transaction -/
  pubkey : PublicKey
  /-- ID of the account that signed the transaction -/
  sender : AccountId
  /-- Public key used to sign the current transaction. -/
  signingKey : PublicKey
  timestamp : Timestamp
  /-- The block height we are trying to produce. -/
  height : BlockHeight
  history : List Effect

/-- A request of an app for data from outside. A value that is requested or loaded stands as its
JSON. -/
structure DataRequest where
  request : String
  /-- What the outside world answers. -/
  load : Except Error String
  /-- Whether a text is JSON of the request's type, and then whether it is this request. -/
  parseRequest : String → Option Bool
  parseResponse : String → Option String
  validate : String → Except Error Unit

namespace ExecutionContext

variable {S : Type} (env : Externals)

/-! ## The context -/

/-- Make an elementary change and put it on record. -/
def perform (e : Effect) : Exec Error (ExecutionContext S) Unit :=
  modify fun ctx => { ctx with
    frameworkState := e.apply env ctx.frameworkState
    history := ctx.history ++ [e] }

/-- Perform an operation on the accounts. -/
def account (op : Accounts.Op) : Exec Error (ExecutionContext S) AccountId := do
  let ctx ← Exec.get
  match op.run env.arith ctx.frameworkState.accounts with
  | (.ok id, _) =>
    perform env (.account op id)
    return id
  | (.error e, accounts) =>
    modify fun ctx => { ctx with frameworkState := { ctx.frameworkState with accounts } }
    throw e

def getChain (chain : ExternalChain) : Exec Error (ExecutionContext S) ChainState := do
  lift ((← Exec.get).frameworkState.getChain chain)

def log (msg : String) : Exec Error (ExecutionContext S) Unit := do
  match (← Exec.get).logs.getLast? with
  | none => throw .panic
  | some last => modify fun ctx => { ctx with logs := ctx.logs.dropLast ++ [last ++ [msg]] }

def logEvent (event : LogEvent) : Exec Error (ExecutionContext S) Unit :=
  log (env.logEventToJson event)

/-! ## Bridge actions -/

def addAction (chain : ExternalChain) (action : ExecAction) :
    Exec Error (ExecutionContext S) BridgeActionId := do
  let state ← getChain chain
  let id := state.nextActionId
  let payload ← lift (action.toPayload env chain state.config id)
  perform env (.emit chain action payload)
  logEvent env (.newBridgeAction chain id)
  return id

/-- Add an action on all chains -/
def addActionAllChains (action : ExecAction) : Exec Error (ExecutionContext S) Unit := do
  let chains := (← Exec.get).frameworkState.chains.keys
  forEach (fun chain => do let _ ← addAction env chain action) chains

/-- Withdraw an asset to an external chain. -/
def withdrawAsset (assetId : AssetId) (chain : ExternalChain) (source : AccountId)
    (wallet : Wallet) (amount : Decimal) : Exec Error (ExecutionContext S) BridgeActionId := do
  let config ← lift ((← Exec.get).frameworkState.getAssetConfig chain assetId)
  let (amountDec, amountU128) ← lift (config.toU128 env.arith amount)
  let _ ← account env (.burn source assetId amountDec)
  let state ← getChain chain
  let _ ← lift (state.withdraw env.arith assetId amount)
  perform env (.withdraw chain assetId amount)
  addAction env chain (.transfer chain wallet [⟨assetId, amountU128⟩])

/-- Mint new tokens and assign ownership to the given account. -/
def mintAsset (assetId : AssetId) (recipient : AccountId) (amount : Decimal) :
    Exec Error (ExecutionContext S) Unit := do
  let _ ← account env (.mint recipient assetId amount)

/-- Burn some tokens from the given account. -/
def burnAsset (assetId : AssetId) (owner : AccountId) (amount : Decimal) :
    Exec Error (ExecutionContext S) Unit := do
  let _ ← account env (.burn owner assetId amount)

/-- Transfer an asset to another account. -/
def transferAsset (assetId : AssetId) (source dest : AccountId) (amount : Decimal) :
    Exec Error (ExecutionContext S) Unit := do
  burnAsset env assetId source amount
  mintAsset env assetId dest amount

/-! ## Bridge events -/

/-- Credit one of the funds of a deposit; unknown denominations are skipped. -/
def creditFund (chain : ExternalChain) (accountId : AccountId) (fund : BridgedAssetAmount) :
    Exec Error (ExecutionContext S) Unit := do
  let state ← getChain chain
  match state.config.assets.get? fund.denom with
  | none => return ()
  | some assetConfig =>
    let amount ← lift (assetConfig.toDecimal env.arith fund.amount)
    let _ ← account env (.mint accountId assetConfig.assetId amount)
    let state ← getChain chain
    let _ ← lift (state.deposit env.arith assetConfig.assetId amount)
    perform env (.deposit chain assetConfig.assetId amount)

/-- The effect of an event that enough listeners attested. -/
def processEvent (chain : ExternalChain) (eventId : BridgeEventId) :
    BridgeEvent → Exec Error (ExecutionContext S) Unit
  | .instantiated contract => do
    let state ← getChain chain
    match state.config.bridge with
    | .deployed _ => throw (.alreadyDeployed chain)
    | _ => perform env (.deploy chain contract)
  | .regular wallet funds keys => do
    let accountId ← account env (.getOrAddAccountForWallet wallet)
    forEach (fun key => do let _ ← account env (.addPubkeyIgnoreOverlap accountId key)) keys
    forEach (creditFund env chain accountId) funds
    logEvent env (.processedBridgeEvent eventId accountId)
  | .signed _ actionId => do
    let state ← getChain chain
    let (nextActionId, _) ← fromOption .noPendingActions state.pendingActions.first?
    ensure (nextActionId = actionId) (.conditionFailed "*next_action_id == action_id")
    perform env (.confirmAction chain actionId)

/-- The loop over the pending events, which stops at the first that is not ready. Every round
takes one event away, so the number of pending events bounds the rounds. -/
def drainEvents (chain : ExternalChain) : (fuel : Nat) → Exec Error (ExecutionContext S) Unit
  | 0 => return ()
  | fuel + 1 => do
    match ← lift ((← Exec.get).frameworkState.getNextReadyEvent chain) with
    | none => return ()
    | some eventId =>
      let state ← getChain chain
      let pending ← fromOption .panic (state.pendingEvents.get? eventId)
      perform env (.takeEvent chain eventId pending.event)
      processEvent env chain eventId pending.event
      drainEvents chain fuel

def processReadyEvents (chain : ExternalChain) : Exec Error (ExecutionContext S) Unit := do
  let state ← getChain chain
  drainEvents env chain state.pendingEvents.toList.length

/-- The event has to be the one pending under its id, or it is the next one and becomes pending. -/
def reportEvent (chain : ExternalChain) (event : BridgeEvent) (eventId : BridgeEventId)
    (state : ChainState) : Exec Error (ExecutionContext S) Unit :=
  match state.pendingEvents.get? eventId with
  | some pending => ensure (pending.event = event) (.conditionFailed "pending.event == *event")
  | none => do
    ensure (eventId = state.nextEventId) (.conditionFailed "event_id == state.next_event_id")
    perform env (.newEvent chain event)

def listener (chain : ExternalChain) (event : BridgeEvent) (eventId : BridgeEventId) :
    Exec Error (ExecutionContext S) Unit := do
  let ctx ← Exec.get
  ensure (ctx.pubkey ∈ ctx.frameworkState.validatorSet.listeners) (.notAListener ctx.pubkey)
  let state ← getChain chain
  reportEvent env chain event eventId state
  let attestations :=
    ((state.pendingEvents.get? eventId).map PendingBridgeEvent.attestations).getD ∅
  perform env (.attest chain eventId event ctx.pubkey)
  -- Make sure it wasn't already approved
  ensure (ctx.pubkey ∉ attestations) (.conditionFailed "was_inserted")
  processReadyEvents env chain

/-! ## Approvals of bridge actions -/

def approve (chain : ExternalChain) (actionId : BridgeActionId)
    (signature : SignatureWithRecovery) : Exec Error (ExecutionContext S) Unit := do
  let state ← getChain chain
  let action ← fromOption (.missingAction actionId chain) (state.pendingActions.get? actionId)
  let payload ← lift (action.payloadBytesToSign env chain)
  let key ← lift (signature.validate env payload)
  ensure (key ∈ (← Exec.get).frameworkState.validatorSet.approvers)
    (.conditionFailed "approvers.contains(&key)")
  perform env (.approveAction chain actionId key signature)
  ensure (action.approvals.get? key = none) (.alreadyApproved actionId chain key)

/-- The keys that made the signatures, all of them members of a set. -/
def checkApprovers (payload : ByteArray) (approvers : Finset PublicKey) :
    List SignatureWithRecovery → Except Error (Finset PublicKey)
  | [] => .ok ∅
  | sig :: sigs => do
    let pubkey ← sig.validate env payload
    Except.ensure (pubkey ∈ approvers) (.conditionFailed "approvers.contains(&pubkey)")
    let checked ← checkApprovers payload approvers sigs
    return insert pubkey checked

def processorApprove (chain : ExternalChain) (actionId : BridgeActionId)
    (processor : SignatureWithRecovery) (approvers : List SignatureWithRecovery) :
    Exec Error (ExecutionContext S) Unit := do
  let fs := (← Exec.get).frameworkState
  ensure (fs.validatorSet.neededApprovers.val ≤ approvers.length)
    (.conditionFailed "approvers.len() >= needed_approvers")
  let state ← getChain chain
  let action ← fromOption (.missingAction actionId chain) (state.pendingActions.get? actionId)
  ensure (action.processor = none) (.conditionFailed "action.processor.is_none()")
  let payload ← lift (action.payloadBytesToSign env chain)
  let processorKey ← lift (processor.validate env payload)
  ensure (processorKey = fs.validatorSet.processor)
    (.conditionFailed "processor_key == validator_set.processor")
  let checked ← lift (checkApprovers env payload fs.validatorSet.approvers approvers)
  ensure (approvers.length = checked.card)
    (.conditionFailed "approvers.len() == approvers_checked.len()")
  perform env (.processorApprove chain actionId processor approvers)

/-! ## Messages of users -/

def bank : BankMessage → Exec Error (ExecutionContext S) Unit
  | .withdraw asset chain dest amount => do
    let _ ← withdrawAsset env asset chain (← Exec.get).sender dest amount
  | .transfer asset dest amount => do
    transferAsset env asset (← Exec.get).sender dest amount

def auth : AuthMessage → Exec Error (ExecutionContext S) Unit
  | .addPublicKey key => do
    let _ ← account env (.addPubkey (← Exec.get).sender key)
  | .removePublicKey key => do
    let ctx ← Exec.get
    ensure (key ≠ ctx.signingKey) (.removesSigningKey key ctx.sender)
    let _ ← account env (.removePubkey ctx.sender key)
  | .addWallet wallet => do
    let _ ← account env (.addWallet (← Exec.get).sender wallet)
  | .removeWallet wallet => do
    let _ ← account env (.removeWallet (← Exec.get).sender wallet)

/-! ## Messages of validators -/

def addAdminProposal (payload : ProposalPayload) (pubkey : PublicKey)
    (sigrec : SignatureWithRecovery) : Exec Error (ExecutionContext S) Unit := do
  let state := (← Exec.get).frameworkState.adminProposalState
  match state.proposals.find? (fun existing => existing.payload.same payload) with
  | some (id, _) => throw (.identicalProposal id)
  | none =>
    perform env (.propose payload pubkey sigrec)
    logEvent env (.newAdminProposal state.nextAdminProposalId)

/-- The actions that carry an approved proposal to the contracts. -/
def addProposalActions (payload : ProposalPayload) (approvals : List SignatureWithRecovery) :
    Exec Error (ExecutionContext S) Unit :=
  match payload with
  | .newSet validatorSet => addActionAllChains env (.newSet validatorSet approvals)
  | .migrateContract migrate => do
    let _ ← addAction env migrate.value.chain (.migrateContract migrate)
  | .upgrade _ => return ()

def checkPendingProposals : Exec Error (ExecutionContext S) Unit := do
  match (← Exec.get).frameworkState.findApprovedProposal with
  | none => return ()
  | some (id, { payload, approvals }) =>
    logEvent env (.adminProposalApproved id)
    perform env (.enact id payload)
    addProposalActions env payload approvals.values
    -- We always clear all pending proposals when an admin action completes.
    perform env .clearProposals

/-- Whether a key has a role in a validator set. -/
def holdsRole (set : ValidatorSet) (validatorType : ValidatorType) (key : PublicKey) : Bool :=
  match validatorType with
  | .processor => set.processor = key
  | .listener => key ∈ set.listeners
  | .approver => key ∈ set.approvers

/-- Propose a signed text, which the sender has to have signed. -/
def proposeSigned {α : Type} (signed : SignedTaggedJson α)
    (payload : TaggedJson α → ProposalPayload) (valid : α → Except Error Unit) :
    Exec Error (ExecutionContext S) Unit := do
  let ctx ← Exec.get
  let signer ← lift (signed.verifySignature env)
  ensure (signer = ctx.pubkey) (.conditionFailed "signer == self.pubkey")
  lift ((ctx.frameworkState.validatorSet.ensureIsValidator ctx.pubkey).mapError .validatorSet)
  lift (valid signed.message.value)
  addAdminProposal env (payload signed.message) ctx.pubkey signed.signatureWithRecovery
  checkPendingProposals env

def admin : AdminMessage → Exec Error (ExecutionContext S) Unit
  | .selfReplace signed => do
    let ctx ← Exec.get
    let signer ← lift (signed.verifySignature env)
    ensure (signer = ctx.pubkey) (.conditionFailed "signer == self.pubkey")
    let validatorType := signed.message.value.validatorType
    ensure (holdsRole ctx.frameworkState.validatorSet validatorType signer)
      (.notAMember signer validatorType)
    perform env (.replaceValidator signed signer)
    addActionAllChains env (.selfReplace signed)
  | .newSet signed =>
    proposeSigned env signed .newSet fun set => set.validate.mapError .validatorSet
  | .migrateContract signed => proposeSigned env signed .migrateContract fun _ => .ok ()
  | .upgrade signed => proposeSigned env signed .upgrade fun _ => .ok ()
  | .approve adminProposalId signature => do
    let ctx ← Exec.get
    let fs := ctx.frameworkState
    lift ((fs.validatorSet.ensureIsValidator ctx.pubkey).mapError .validatorSet)
    let pending ← fromOption (.unknownProposal adminProposalId)
      (fs.adminProposalState.proposals.get? adminProposalId)
    let pubkey ← lift (signature.validate env pending.payload.serialized.toByteArray)
    ensure (pubkey = ctx.pubkey) (.conditionFailed "pubkey == self.pubkey")
    perform env (.vote adminProposalId pubkey signature)
    ensure (pending.approvals.get? pubkey = none)
      (.alreadyApprovedProposal pubkey adminProposalId)
    checkPendingProposals env

/-! ## Calls of apps -/

/-- The response of a recorded load, which has to be a load of this request. -/
def checkLoad (req : DataRequest) (load : BlockDataLoad) (validation : DataLoadValidation) :
    Except Error String := do
  let same ← Except.fromOption (.codec "data request") (req.parseRequest load.request)
  let prevRes ← Except.fromOption (.codec "data response") (req.parseResponse load.response)
  Except.ensure (same = true) (.conditionFailed "prev_req == req")
  match validation with
  | .validateDataLoads => do
    req.validate prevRes
    return prevRes
  | .trustDataLoads => return prevRes

def takeLoad (req : DataRequest) (loads : List BlockDataLoad) (validation : DataLoadValidation) :
    Exec Error (ExecutionContext S) String :=
  match loads with
  | [] => throw .incorrectNumberOfLoads
  | load :: loads => do
    modify fun ctx => { ctx with blockDataHandling := .priorData loads validation }
    lift (checkLoad req load validation)

def getLoad (req : DataRequest) : BlockDataHandling → Exec Error (ExecutionContext S) String
  | .priorData loads validation => takeLoad req loads validation
  | .noPriorData => lift req.load

def loadData (req : DataRequest) : Exec Error (ExecutionContext S) String := do
  let res ← getLoad req (← Exec.get).blockDataHandling
  modify fun ctx => { ctx with loads := ctx.loads ++ [⟨req.request, res⟩] }
  return res

end ExecutionContext

/-! ## Apps -/

/-- What an app may do with the context. -/
inductive AppCall
  | getOrAddAccountIdForKey (key : PublicKey)
  | getOrAddAccountIdForWallet (wallet : Wallet)
  | withdrawAsset (assetId : AssetId) (chain : ExternalChain) (source : AccountId)
    (wallet : Wallet) (amount : Decimal)
  | transferAsset (assetId : AssetId) (source dest : AccountId) (amount : Decimal)
  | mintAsset (assetId : AssetId) (recipient : AccountId) (amount : Decimal)
  | burnAsset (assetId : AssetId) (owner : AccountId) (amount : Decimal)
  | loadData (req : DataRequest)
  | log (msg : String)

/-- What a call returns. -/
inductive AppReply
  | unit
  | account (id : AccountId)
  | action (id : BridgeActionId)
  | data (response : String)
deriving DecidableEq

/-- The rest of an app's run: it ends with a new state, gives up, or calls and goes on with the
reply and the framework state it then sees. -/
inductive AppProgram (S : Type)
  | done (state : S)
  | fail (e : Error)
  | call (c : AppCall) (next : Except Error AppReply → FrameworkState → AppProgram S)

section

variable {S : Type} (env : Externals)

open ExecutionContext in
def AppCall.run : AppCall → Exec Error (ExecutionContext S) AppReply
  | getOrAddAccountIdForKey key => do
    return .account (← account env (.getOrAddAccountForKey key))
  | getOrAddAccountIdForWallet wallet => do
    return .account (← account env (.getOrAddAccountForWallet wallet))
  | withdrawAsset assetId chain source wallet amount => do
    return .action (← ExecutionContext.withdrawAsset env assetId chain source wallet amount)
  | transferAsset assetId source dest amount => do
    ExecutionContext.transferAsset env assetId source dest amount
    return .unit
  | mintAsset assetId recipient amount => do
    ExecutionContext.mintAsset env assetId recipient amount
    return .unit
  | burnAsset assetId owner amount => do
    ExecutionContext.burnAsset env assetId owner amount
    return .unit
  | loadData req => do return .data (← ExecutionContext.loadData req)
  | log msg => do
    ExecutionContext.log msg
    return .unit

def AppProgram.run : AppProgram S → Exec Error (ExecutionContext S) Unit
  | done state => modify fun ctx => { ctx with appState := state }
  | fail e => throw e
  | call c next => fun ctx =>
    match c.run env ctx with
    | (.error .panic, ctx') => (.error .panic, ctx')
    | (reply, ctx') => (next reply ctx'.frameworkState).run ctx'

end

/-- What an app sees of the context. -/
structure AppView (S : Type) where
  frameworkState : FrameworkState
  appState : S
  timestamp : Timestamp
  height : BlockHeight
  sender : AccountId
  signingKey : PublicKey

def ExecutionContext.view {S : Type} (ctx : ExecutionContext S) : AppView S where
  frameworkState := ctx.frameworkState
  appState := ctx.appState
  timestamp := ctx.timestamp
  height := ctx.height
  sender := ctx.sender
  signingKey := ctx.signingKey

structure App where
  State : Type
  Message : Type
  World : Type
  /-- Initial chain information. -/
  genesisInfo : GenesisInfo
  /-- Generate a blank state. -/
  newState : Except Error State
  /-- Execute a message. -/
  execute : World → AppView State → Message → AppProgram State

/-! ## Transactions -/

/-- The latest state of a chain, with the elementary changes that led to it. -/
structure Node (app : App) where
  frameworkState : FrameworkState
  appState : app.State
  nextHeight : BlockHeight
  history : List Effect

/-- A transaction to execute, and the circumstances. -/
structure Call (app : App) where
  tx : SignedTransaction app.Message
  timestamp : Timestamp
  handling : BlockDataHandling
  codeVersion : String
  world : app.World

structure ExecutionResults (S : Type) where
  frameworkState : FrameworkState
  appState : S
  /-- Logs collected from each message. -/
  logs : List (List String)
  loads : List BlockDataLoad
  height : BlockHeight
  history : List Effect

section

variable {app : App} (env : Externals)

open ExecutionContext in
def executeMessage (world : app.World) :
    Message app.Message → Exec Error (ExecutionContext app.State) Unit
  | .genesis actual =>
    ensure (app.genesisInfo = actual) (.conditionFailed "expected == actual")
  | .app msg => do
    let ctx ← Exec.get
    (app.execute world ctx.view msg).run env
  | .listener chain eventId event => listener env chain event eventId
  | .approve chain actionId signature => approve env chain actionId signature
  | .processorApprove chain actionId processor approvers =>
    processorApprove env chain actionId processor approvers
  | .bank msg => bank env msg
  | .auth msg => auth env msg
  | .admin msg => admin env msg

/-- The messages of a transaction, each with logs of its own. -/
def executeMessages (world : app.World) :
    List (Message app.Message) → Exec Error (ExecutionContext app.State) Unit :=
  forEach fun message => do
    modify fun ctx => { ctx with logs := ctx.logs ++ [[]] }
    executeMessage env world message

namespace Node

def validateTx (self : Node app) (tx : SignedTransaction app.Message) : Except Error Unit := do
  -- Ensure that the signature is valid
  let pubkey ← tx.verifySignature env
  Except.ensure (pubkey = tx.message.value.pubkey) (.conditionFailed "pubkey == tx.pubkey")
  -- Make sure this is a genesis event if and only if we have no events so far
  if self.nextHeight = 0 then do
    tx.message.value.ensureIsGenesis
    Except.ensure (tx.message.value.pubkey = self.frameworkState.validatorSet.processor)
      (.conditionFailed "tx.pubkey == self.get_processor_pubkey()")
  else tx.message.value.ensureNoGenesis

/-- The context in which the messages of a transaction are executed, once its nonce is used. -/
def start (self : Node app) (call : Call app) :
    Except Error (ExecutionContext app.State) := do
  Except.ensure (self.frameworkState.version = call.codeVersion)
    (.codeVersionMismatch call.codeVersion self.frameworkState.version)
  self.validateTx env call.tx
  let tx := call.tx.message.value
  let op := Accounts.Op.useNonce tx.pubkey tx.nonce
  let sender ← (op.run env.arith self.frameworkState.accounts).1
  return {
    frameworkState := (Effect.account op sender).apply env self.frameworkState
    appState := self.appState
    blockDataHandling := call.handling
    pubkey := tx.pubkey
    sender
    signingKey := tx.pubkey
    timestamp := call.timestamp
    logs := []
    loads := []
    height := self.nextHeight
    history := [.account op sender] }

def executeTransaction (self : Node app) (call : Call app) :
    Except Error (ExecutionResults app.State) := do
  let ctx ← self.start env call
  match executeMessages env call.world call.tx.message.value.messages ctx with
  | (.error e, _) => .error e
  | (.ok (), ctx) =>
    ctx.blockDataHandling.finish
    return {
      frameworkState := ctx.frameworkState
      appState := ctx.appState
      logs := ctx.logs
      loads := ctx.loads
      height := ctx.height
      history := ctx.history }

/-- The state before the first block, if the app's genesis is valid. -/
def genesis (app : App) : Except Error (Node app) := do
  let frameworkState := FrameworkState.new app.genesisInfo
  let appState ← app.newState
  frameworkState.validatorSet.validate.mapError .validatorSet
  return { frameworkState, appState, nextHeight := 0, history := [] }

/-- The state after a block with the given results. -/
def advance (self : Node app) (results : ExecutionResults app.State) : Node app where
  frameworkState := results.frameworkState
  appState := results.appState
  nextHeight := results.height + 1
  history := self.history ++ results.history

/-- The chain as a machine: a transaction that succeeds makes a block. -/
def machine : Machine (Node app) (Call app) Error where
  step self call := do
    let results ← self.executeTransaction env call
    return self.advance results

/-- A state that some transactions lead to from a valid genesis. -/
def Reachable (self : Node app) : Prop :=
  ∃ start calls, genesis app = .ok start ∧ self = (machine env).run start calls

end Node

end

end Kolme
