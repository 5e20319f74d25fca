import Kolme.Core.Decimal
import Kolme.Lib.SortedMap
import Kolme.Shared.Solana
import Mathlib.Data.String.Basic

/-!
# Data of the chain

External chains and their configuration, what waits for them, and the transactions that clients
sign. Maps are ordered by their keys, as iteration over them is.

`BlockHeight` and `AdminProposalId` only ever advance by one, so they are natural numbers; ids and
nonces of accounts are 64 bits wide and wrap around.
-/

namespace Kolme

abbrev U128 := Fin (2 ^ 128)

abbrev AccountId := U64
abbrev AccountNonce := U64
abbrev AssetId := U64
abbrev AdminProposalId := Nat
abbrev BlockHeight := Nat
abbrev Timestamp := Int

/-- Blockchain wallet address. -/
abbrev Wallet := String

abbrev AssetName := String

/-! ## External chains -/

inductive ExternalChain
  | osmosisTestnet
  | neutronTestnet
  | osmosisLocal
  | solanaMainnet
  | solanaTestnet
  | solanaDevnet
  | solanaLocal
  | ethereumMainnet
  | ethereumSepolia
  | ethereumLocal
  | passThrough
deriving DecidableEq

inductive ChainName
  | cosmos
  | solana
  | ethereum
  | passThrough
deriving DecidableEq

namespace ExternalChain

def asRef : ExternalChain → String
  | osmosisTestnet => "osmosis-testnet"
  | neutronTestnet => "neutron-testnet"
  | osmosisLocal => "osmosis-local"
  | solanaMainnet => "solana-mainnet"
  | solanaTestnet => "solana-testnet"
  | solanaDevnet => "solana-devnet"
  | solanaLocal => "solana-local"
  | ethereumMainnet => "ethereum-mainnet"
  | ethereumSepolia => "ethereum-sepolia"
  | ethereumLocal => "ethereum-local"
  | passThrough => "pass-through"

theorem asRef_injective : Function.Injective asRef := by
  intro a b h
  cases a <;> cases b <;> first | rfl | exact absurd h (by decide)

/-- The key of a chain in a map is its name. -/
instance : LinearOrder ExternalChain := LinearOrder.lift' asRef asRef_injective

def name : ExternalChain → ChainName
  | osmosisTestnet | neutronTestnet | osmosisLocal => .cosmos
  | solanaMainnet | solanaTestnet | solanaDevnet | solanaLocal => .solana
  | ethereumMainnet | ethereumSepolia | ethereumLocal => .ethereum
  | passThrough => .passThrough

end ExternalChain

inductive CosmosChain
  | osmosisTestnet
  | neutronTestnet
  | osmosisLocal
deriving DecidableEq

inductive SolanaChain
  | mainnet
  | testnet
  | devnet
  | local
deriving DecidableEq

def CosmosChain.toExternalChain : CosmosChain → ExternalChain
  | osmosisTestnet => .osmosisTestnet
  | neutronTestnet => .neutronTestnet
  | osmosisLocal => .osmosisLocal

def SolanaChain.toExternalChain : SolanaChain → ExternalChain
  | mainnet => .solanaMainnet
  | testnet => .solanaTestnet
  | devnet => .solanaDevnet
  | .local => .solanaLocal

/-! ## Texts with their values -/

/-- A value together with the JSON text it was parsed from or rendered to. Signatures are over
the text, and two of them are equal when their texts are. -/
structure TaggedJson (α : Type) where
  serialized : String
  value : α
deriving DecidableEq

/-- A signed text with the value it stands for. -/
structure SignedTaggedJson (α : Type) where
  message : TaggedJson α
  signature : Signature
  recoveryId : UInt8
deriving DecidableEq

namespace SignedTaggedJson

variable {α : Type}

def signatureWithRecovery (self : SignedTaggedJson α) : SignatureWithRecovery :=
  ⟨self.recoveryId, self.signature⟩

end SignedTaggedJson

/-! ## Errors -/

inductive AccountsError
  | insufficientBalance (accountId : AccountId) (assetId : AssetId)
    (requested available : Decimal)
  | mustMintPositive (accountId : AccountId) (assetId : AssetId) (toMint : Decimal)
  | mustBurnPositive (accountId : AccountId) (assetId : AssetId) (toBurn : Decimal)
deriving DecidableEq

inductive CoreStateError
  | chainNotSupported (chain : ExternalChain)
  | assetNotSupported (chain : ExternalChain) (assetId : AssetId)
deriving DecidableEq

inductive AssetError
  | couldNotConvertToDecimal (amount : U128) (decimals : UInt8)
  | u128TooLarge (amount : U128)
  | toU128WithNegative (amount : Decimal)
deriving DecidableEq

/-- Why a transaction fails. -/
inductive Error
  | accounts (source : AccountsError)
  | coreState (source : CoreStateError)
  | asset (source : AssetError)
  | validatorSet (source : ValidatorSetError)
  | invalidNonce (pubkey : PublicKey) (accountId : AccountId) (expected actual : AccountNonce)
  | newAccountNonce (pubkey : PublicKey) (expected actual : AccountNonce)
  | pubkeyInUse (key : PublicKey)
  | walletInUse (wallet : Wallet)
  | accountNotFound (accountId : AccountId)
  | unknownPubkey (key : PublicKey)
  | unknownWallet (wallet : Wallet)
  | pubkeyOfOtherAccount (key : PublicKey) (id actualId : AccountId)
  | walletOfOtherAccount (wallet : Wallet) (id actualId : AccountId)
  | removesSigningKey (key : PublicKey) (accountId : AccountId)
  | depositOverflow (assetId : AssetId) (amount : Decimal)
  | insufficientFunds (assetId : AssetId) (amount : Decimal)
  | invalidSignature
  | codeVersionMismatch (codeVersion chainVersion : String)
  | notAListener (key : PublicKey)
  | alreadyDeployed (chain : ExternalChain)
  | noPendingActions
  | missingAction (actionId : BridgeActionId) (chain : ExternalChain)
  | alreadyApproved (actionId : BridgeActionId) (chain : ExternalChain) (key : PublicKey)
  | notAMember (key : PublicKey) (validatorType : ValidatorType)
  | identicalProposal (id : AdminProposalId)
  | unknownProposal (id : AdminProposalId)
  | alreadyApprovedProposal (key : PublicKey) (id : AdminProposalId)
  | unsupportedAssetId (id : AssetId)
  | contractNotDeployed (chain : ExternalChain)
  | incorrectNumberOfLoads
  /-- A text cannot be decoded, or a value cannot be encoded. -/
  | codec (what : String)
  /-- A check without a text of its own fails. -/
  | conditionFailed (condition : String)
  /-- The app gives up. -/
  | app (text : String)
  /-- The code panics. -/
  | panic
deriving DecidableEq

/-! ## Assets -/

structure AssetConfig where
  decimals : UInt8
  assetId : AssetId
deriving DecidableEq

structure AssetAmount where
  id : AssetId
  amount : U128
deriving DecidableEq

namespace AssetConfig

open Except

variable (ar : Arith)

def toDecimal (self : AssetConfig) (amount : U128) : Except Error Decimal := do
  ensure (amount.val < 2 ^ 127) (.asset (.u128TooLarge amount))
  fromOption (.asset (.couldNotConvertToDecimal amount self.decimals))
    (ar.tryFromI128WithScale amount.val self.decimals.toNat)

/-- Convert a decimal amount to an integer of 128 bits. The decimal returned is the amount that
the integer stands for, so that dust remains in the user account. -/
def toU128 (self : AssetConfig) (amount : Decimal) : Except Error (Decimal × U128) := do
  ensure (0 ≤ amount.mantissa) (.asset (.toU128WithNegative amount))
  let int : U128 := Fin.ofNat _ amount.mantissa.toNat
  let decimals := self.decimals.toNat
  let scale := amount.scale.val
  let int :=
    if decimals < scale then (fun n => n / 10)^[scale - decimals] int
    else (fun n => n * 10)^[decimals - scale] int
  return (← self.toDecimal ar int, int)

end AssetConfig

/-! ## Bridges -/

inductive BridgeContract
  | neededCosmosBridge (codeId : U64)
  | neededSolanaBridge (programId : String)
  | neededEthereumBridge
  | deployed (contract : String)
deriving DecidableEq

structure ChainConfig where
  assets : SortedMap AssetName AssetConfig
  bridge : BridgeContract
deriving DecidableEq

structure PendingBridgeAction where
  payload : String
  /-- Approvals from the approvers -/
  approvals : SortedMap PublicKey SignatureWithRecovery
  /-- Processor signature finalizing this operation -/
  processor : Option SignatureWithRecovery
deriving DecidableEq

structure BridgedAssetAmount where
  denom : String
  amount : U128
deriving DecidableEq

/-- An event emitted by a bridge contract and reported by a listener. -/
inductive BridgeEvent
  /-- A bridge was instantiated. -/
  | instantiated (contract : String)
  /-- Regular action performed by the user. -/
  | regular (wallet : Wallet) (funds : List BridgedAssetAmount) (keys : List PublicKey)
  | signed (wallet : Wallet) (actionId : BridgeActionId)
deriving DecidableEq

structure PendingBridgeEvent where
  event : BridgeEvent
  /-- Attestations from the listeners -/
  attestations : Finset PublicKey
deriving DecidableEq

structure ChainState where
  config : ChainConfig
  /-- The next action ID the chain will emit. -/
  nextActionId : BridgeActionId
  /-- Actions which have not yet been confirmed as landing on-chain. -/
  pendingActions : SortedMap BridgeActionId PendingBridgeAction
  /-- The next ID that will be added to `pendingEvents`. -/
  nextEventId : BridgeEventId
  /-- Events which have not been fully processed. -/
  pendingEvents : SortedMap BridgeEventId PendingBridgeEvent
  /-- Balance of different assets in the bridge contract. -/
  assets : SortedMap AssetId Decimal
deriving DecidableEq

def ChainConfig.intoState (self : ChainConfig) : ChainState where
  config := self
  nextActionId := 0
  pendingActions := ∅
  nextEventId := 0
  pendingEvents := ∅
  assets := ∅

namespace ChainState

open Except

variable (ar : Arith)

/-- The recorded balance of an asset. -/
def pool (self : ChainState) (assetId : AssetId) : Decimal :=
  (self.assets.get? assetId).getD .zero

def deposit (self : ChainState) (assetId : AssetId) (amount : Decimal) :
    Except Error ChainState := do
  let new ← fromOption (.depositOverflow assetId amount)
    (ar.checkedAdd (self.pool assetId) amount)
  return { self with assets := self.assets.insert assetId new }

def withdraw (self : ChainState) (assetId : AssetId) (amount : Decimal) :
    Except Error ChainState := do
  let new ← fromOption (.insufficientFunds assetId amount)
    (ar.checkedSub (self.pool assetId) amount)
  return { self with assets := self.assets.insert assetId new }

end ChainState

/-- Information defining the initial state of an app. -/
structure GenesisInfo where
  /-- Unique identifier for this application, never changes. -/
  kolmeIdent : String
  validatorSet : ValidatorSet
  /-- Initial configuration of different chains -/
  chains : SortedMap ExternalChain ChainConfig
  /-- Initial version of the code the chain starts with. -/
  version : String
deriving DecidableEq

/-! ## Actions on external chains -/

inductive MigrateContract
  /-- The message is the rendered form of the JSON value that is sent. -/
  | cosmos (chain : CosmosChain) (newCodeId : U64) (message : String)
  | solana (chain : SolanaChain) (bufferAddress spillAddress : Solana.Pubkey)
deriving DecidableEq

def MigrateContract.chain : MigrateContract → ExternalChain
  | cosmos chain _ _ => chain.toExternalChain
  | solana chain _ _ => chain.toExternalChain

structure Upgrade where
  desiredVersion : String
deriving DecidableEq

/-- A specific action to be taken as a result of an execution. -/
inductive ExecAction
  | transfer (chain : ExternalChain) (recipient : Wallet) (funds : List AssetAmount)
  /-- Replace a single validator using a self-replacement. -/
  | selfReplace (selfReplace : SignedTaggedJson SelfReplace)
  /-- Replace the entire validator set. -/
  | newSet (validatorSet : TaggedJson ValidatorSet) (approvals : List SignatureWithRecovery)
  | migrateContract (migrateContract : TaggedJson MigrateContract)
deriving DecidableEq

/-! ## Messages and transactions -/

inductive AuthMessage
  | addPublicKey (key : PublicKey)
  | removePublicKey (key : PublicKey)
  | addWallet (wallet : Wallet)
  | removeWallet (wallet : Wallet)
deriving DecidableEq

inductive BankMessage
  | transfer (asset : AssetId) (dest : AccountId) (amount : Decimal)
  | withdraw (asset : AssetId) (chain : ExternalChain) (dest : Wallet) (amount : Decimal)
deriving DecidableEq

/-- Admin messages sent by validators. -/
inductive AdminMessage
  /-- The sending key is replacing itself with a new key. -/
  | selfReplace (selfReplace : SignedTaggedJson SelfReplace)
  /-- Replace the complete validator set. -/
  | newSet (validatorSet : SignedTaggedJson ValidatorSet)
  /-- Initiate a contract migration. -/
  | migrateContract (migrate : SignedTaggedJson MigrateContract)
  /-- Upgrade to a new code version. -/
  | upgrade (upgrade : SignedTaggedJson Upgrade)
  /-- Vote to approve an admin proposal. -/
  | approve (adminProposalId : AdminProposalId) (signature : SignatureWithRecovery)

/-- An individual message included in a transaction. -/
inductive Message (M : Type)
  | genesis (info : GenesisInfo)
  | app (msg : M)
  | listener (chain : ExternalChain) (eventId : BridgeEventId) (event : BridgeEvent)
  /-- Approval from a single approver for a bridge action. -/
  | approve (chain : ExternalChain) (actionId : BridgeActionId)
    (signature : SignatureWithRecovery)
  /-- Final approval from the processor to confirm approvals from approvers. -/
  | processorApprove (chain : ExternalChain) (actionId : BridgeActionId)
    (processor : SignatureWithRecovery) (approvers : List SignatureWithRecovery)
  | auth (msg : AuthMessage)
  | bank (msg : BankMessage)
  | admin (msg : AdminMessage)

/-- A transaction, proposed by clients to be included in a block. -/
structure Transaction (M : Type) where
  pubkey : PublicKey
  nonce : AccountNonce
  messages : List (Message M)
  maxHeight : Option BlockHeight

abbrev SignedTransaction (M : Type) := SignedTaggedJson (Transaction M)

namespace Transaction

open Except

variable {M : Type}

def ensureIsGenesis (self : Transaction M) : Except Error Unit :=
  match self.messages with
  | [.genesis _] => .ok ()
  | [_] => .error (.conditionFailed "matches!(self.messages[0], Message::Genesis(_))")
  | _ => .error (.conditionFailed "self.messages.len() == 1")

def ensureNoGenesis (self : Transaction M) : Except Error Unit :=
  go self.messages
where
  go : List (Message M) → Except Error Unit
    | [] => .ok ()
    | .genesis _ :: _ => .error (.conditionFailed "!matches!(msg, Message::Genesis(_))")
    | _ :: msgs => go msgs

end Transaction

/-! ## Proposals -/

/-- The action that should be taken for this proposal. -/
inductive ProposalPayload
  | newSet (set : TaggedJson ValidatorSet)
  | migrateContract (migrate : TaggedJson MigrateContract)
  | upgrade (upgrade : TaggedJson Upgrade)
deriving DecidableEq

namespace ProposalPayload

/-- The text that is signed. -/
def serialized : ProposalPayload → String
  | .newSet set => set.serialized
  | .migrateContract migrate => migrate.serialized
  | .upgrade u => u.serialized

/-- Equality: the same kind with the same text. -/
def same : ProposalPayload → ProposalPayload → Bool
  | .newSet a, .newSet b => a.serialized = b.serialized
  | .migrateContract a, .migrateContract b => a.serialized = b.serialized
  | .upgrade a, .upgrade b => a.serialized = b.serialized
  | _, _ => false

end ProposalPayload

/-- Status of an in-flight admin proposal. -/
structure PendingProposal where
  payload : ProposalPayload
  approvals : SortedMap PublicKey SignatureWithRecovery
deriving DecidableEq

/-- Manages the state of admin proposals. -/
structure AdminProposalState where
  /-- Next admin proposal ID to be issued. -/
  nextAdminProposalId : AdminProposalId
  /-- Currently in-flight proposals -/
  proposals : SortedMap AdminProposalId PendingProposal
deriving DecidableEq

/-! ## Logs and data loads -/

/-- Represents distinct occurrences in the core that could be relevant to users. -/
inductive LogEvent
  | processedBridgeEvent (bridgeEventId : BridgeEventId) (accountId : AccountId)
  | newAdminProposal (id : AdminProposalId)
  | adminProposalApproved (id : AdminProposalId)
  | newBridgeAction (chain : ExternalChain) (id : BridgeActionId)
deriving DecidableEq

/-- Input and output for a single data load while processing a block. -/
structure BlockDataLoad where
  /-- Description of the request -/
  request : String
  /-- The resulting value -/
  response : String
deriving DecidableEq

/-- Whether we validate data loads during block processing. -/
inductive DataLoadValidation
  | validateDataLoads
  | trustDataLoads
deriving DecidableEq

end Kolme
