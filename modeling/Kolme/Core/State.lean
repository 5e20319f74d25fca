import Kolme.Core.Accounts
import Kolme.Core.Payload

/-!
# The framework state

The validator set, the chains, the accounts, the proposals in flight and the version. All changes
of the state are elementary changes (`Effect`), which the history of a node lists in order; the
history itself is not part of the program, it only records what a run did.
-/

namespace Kolme

open Except

/-- Raw framework state that can be serialized to the database. -/
structure FrameworkState where
  validatorSet : ValidatorSet
  chains : SortedMap ExternalChain ChainState
  accounts : Accounts
  adminProposalState : AdminProposalState
  version : String
deriving DecidableEq

namespace PendingProposal

def fulfillsGroups (self : PendingProposal) (group : Finset PublicKey) (needed : U16) : Bool :=
  let approvals := (group.filter (fun member => self.approvals.contains member)).card
  needed ≤ (Fin.ofNat _ approvals : U16)

/-- Do we have enough approvals to meet the current validator set rules? -/
def hasSufficientApprovals (self : PendingProposal) (validatorSet : ValidatorSet) : Bool :=
  let byProcessor := self.approvals.contains validatorSet.processor
  let isUpgrade := match self.payload with
    | .upgrade _ => true
    | _ => false
  -- Keep the processor in sync with the chain version before applying an upgrade.
  if isUpgrade && !byProcessor then false
  else
    let groupApprovals := byProcessor.toNat +
      (self.fulfillsGroups validatorSet.listeners validatorSet.neededListeners).toNat +
      (self.fulfillsGroups validatorSet.approvers validatorSet.neededApprovers).toNat
    2 ≤ groupApprovals

end PendingProposal

namespace FrameworkState

def new (info : GenesisInfo) : FrameworkState where
  validatorSet := info.validatorSet
  chains := info.chains.map ChainConfig.intoState
  accounts := .empty
  adminProposalState := { nextAdminProposalId := 0, proposals := ∅ }
  version := info.version

def getChain (self : FrameworkState) (chain : ExternalChain) : Except Error ChainState :=
  fromOption (.coreState (.chainNotSupported chain)) (self.chains.get? chain)

def getAssetConfig (self : FrameworkState) (chain : ExternalChain) (assetId : AssetId) :
    Except Error AssetConfig := do
  let state ← self.getChain chain
  fromOption (.coreState (.assetNotSupported chain assetId))
    ((state.config.assets.find? (·.assetId = assetId)).map Prod.snd)

/-- The first pending event of a chain, if enough current listeners attested it. -/
def getNextReadyEvent (self : FrameworkState) (chain : ExternalChain) :
    Except Error (Option BridgeEventId) := do
  let state ← fromOption .panic (self.chains.get? chain)
  match state.pendingEvents.first? with
  | none => return none
  | some (eventId, pending) =>
    let existingSignatures := (pending.attestations ∩ self.validatorSet.listeners).card
    ensure (existingSignatures < 2 ^ 16) .panic
    return if self.validatorSet.neededListeners.val ≤ existingSignatures then some eventId
      else none

/-- The first proposal that has enough approvals. -/
def findApprovedProposal (self : FrameworkState) : Option (AdminProposalId × PendingProposal) :=
  self.adminProposalState.proposals.find? (·.hasSufficientApprovals self.validatorSet)

end FrameworkState

/-! ## Elementary changes -/

/-- An elementary change of the framework state. -/
inductive Effect
  /-- An operation on accounts, about the account `id`. -/
  | account (op : Accounts.Op) (id : AccountId)
  /-- The next event of a chain is reported for the first time. -/
  | newEvent (chain : ExternalChain) (event : BridgeEvent)
  | attest (chain : ExternalChain) (eventId : BridgeEventId) (event : BridgeEvent)
    (key : PublicKey)
  /-- An event leaves the queue and takes effect. -/
  | takeEvent (chain : ExternalChain) (eventId : BridgeEventId) (event : BridgeEvent)
  | deploy (chain : ExternalChain) (contract : String)
  | deposit (chain : ExternalChain) (assetId : AssetId) (amount : Decimal)
  /-- The contract has executed an action. -/
  | confirmAction (chain : ExternalChain) (actionId : BridgeActionId)
  | approveAction (chain : ExternalChain) (actionId : BridgeActionId) (key : PublicKey)
    (signature : SignatureWithRecovery)
  | processorApprove (chain : ExternalChain) (actionId : BridgeActionId)
    (processor : SignatureWithRecovery) (approvers : List SignatureWithRecovery)
  | withdraw (chain : ExternalChain) (assetId : AssetId) (amount : Decimal)
  /-- An action is queued under the next action id. -/
  | emit (chain : ExternalChain) (action : ExecAction) (payload : String)
  | replaceValidator (signed : SignedTaggedJson SelfReplace) (signer : PublicKey)
  | propose (payload : ProposalPayload) (key : PublicKey) (signature : SignatureWithRecovery)
  | vote (id : AdminProposalId) (key : PublicKey) (signature : SignatureWithRecovery)
  /-- An approved proposal comes into force. -/
  | enact (id : AdminProposalId) (payload : ProposalPayload)
  | clearProposals
deriving DecidableEq

namespace ChainState

/-- Report the next event for the first time. -/
def addEvent (self : ChainState) (event : BridgeEvent) : ChainState :=
  { self with
    nextEventId := self.nextEventId + 1
    pendingEvents := self.pendingEvents.insert self.nextEventId { event, attestations := ∅ } }

def attest (self : ChainState) (eventId : BridgeEventId) (key : PublicKey) : ChainState :=
  match self.pendingEvents.get? eventId with
  | none => self
  | some pending =>
    { self with
      pendingEvents := self.pendingEvents.insert eventId
        { pending with attestations := insert key pending.attestations } }

def takeEvent (self : ChainState) (eventId : BridgeEventId) : ChainState :=
  { self with pendingEvents := self.pendingEvents.erase eventId }

def deploy (self : ChainState) (contract : String) : ChainState :=
  { self with config := { self.config with bridge := .deployed contract } }

def removeAction (self : ChainState) (actionId : BridgeActionId) : ChainState :=
  { self with pendingActions := self.pendingActions.erase actionId }

def updateAction (self : ChainState) (actionId : BridgeActionId)
    (f : PendingBridgeAction → PendingBridgeAction) : ChainState :=
  match self.pendingActions.get? actionId with
  | none => self
  | some action => { self with pendingActions := self.pendingActions.insert actionId (f action) }

/-- Queue an action under the next action id. -/
def addAction (self : ChainState) (payload : String) : ChainState :=
  { self with
    nextActionId := self.nextActionId + 1
    pendingActions := self.pendingActions.insert self.nextActionId
      { payload, approvals := ∅, processor := none } }

end ChainState

namespace AdminProposalState

def add (self : AdminProposalState) (payload : ProposalPayload) (key : PublicKey)
    (signature : SignatureWithRecovery) : AdminProposalState where
  nextAdminProposalId := self.nextAdminProposalId + 1
  proposals := self.proposals.insert self.nextAdminProposalId
    { payload, approvals := (∅ : SortedMap _ _).insert key signature }

def vote (self : AdminProposalState) (id : AdminProposalId) (key : PublicKey)
    (signature : SignatureWithRecovery) : AdminProposalState :=
  match self.proposals.get? id with
  | none => self
  | some pending =>
    { self with
      proposals := self.proposals.insert id
        { pending with approvals := pending.approvals.insert key signature } }

end AdminProposalState

namespace FrameworkState

/-- Change the state of a chain, if there is one. -/
def updateChain (self : FrameworkState) (chain : ExternalChain) (f : ChainState → ChainState) :
    FrameworkState :=
  match self.chains.get? chain with
  | none => self
  | some state => { self with chains := self.chains.insert chain (f state) }

end FrameworkState

variable (env : Externals)

namespace Effect

def apply (fs : FrameworkState) : Effect → FrameworkState
  | account op _ => { fs with accounts := (op.run env.arith fs.accounts).2 }
  | newEvent chain event => fs.updateChain chain (·.addEvent event)
  | attest chain eventId _ key => fs.updateChain chain (·.attest eventId key)
  | takeEvent chain eventId _ => fs.updateChain chain (·.takeEvent eventId)
  | deploy chain contract => fs.updateChain chain (·.deploy contract)
  | deposit chain assetId amount =>
    fs.updateChain chain fun state => (state.deposit env.arith assetId amount).toOption.getD state
  | confirmAction chain actionId => fs.updateChain chain (·.removeAction actionId)
  | approveAction chain actionId key signature =>
    fs.updateChain chain (·.updateAction actionId fun action =>
      { action with approvals := action.approvals.insert key signature })
  | processorApprove chain actionId processor _ =>
    fs.updateChain chain (·.updateAction actionId fun action =>
      { action with processor := some processor })
  | withdraw chain assetId amount =>
    fs.updateChain chain fun state => (state.withdraw env.arith assetId amount).toOption.getD state
  | emit chain _ payload => fs.updateChain chain (·.addAction payload)
  | replaceValidator signed signer =>
    let { validatorType, replacement } := signed.message.value
    { fs with
      validatorSet := fs.validatorSet.replaceValidator validatorType signer replacement }
  | propose payload key signature =>
    { fs with adminProposalState := fs.adminProposalState.add payload key signature }
  | vote id key signature =>
    { fs with adminProposalState := fs.adminProposalState.vote id key signature }
  | enact _ (.newSet validatorSet) => { fs with validatorSet := validatorSet.value }
  | enact _ (.migrateContract _) => fs
  | enact _ (.upgrade u) => { fs with version := u.value.desiredVersion }
  | clearProposals =>
    { fs with adminProposalState := { fs.adminProposalState with proposals := ∅ } }

end Effect

end Kolme
