import Kolme.Core.Types
import Kolme.Shared.Cosmos
import Kolme.Lib.Abi
import Kolme.Contracts.Ethereum.BridgeBase

/-!
# Payloads of bridge actions

An action is rendered for the chain it goes to: as JSON for Cosmos, as base64 of the binary layout
for Solana, as base64 of a Solidity tuple for Ethereum. Renderers, parsers and the curve come from
outside and are collected in `Externals`.
-/

namespace Kolme

open Except

/-- What the chain calls of other libraries. -/
structure Externals where
  arith : Arith
  recoverFromMsg : ByteArray → Signature → (recid : UInt8) → Option PublicKey
  logEventToJson : LogEvent → String
  cosmosPayloadToJson : Cosmos.PayloadWithId → String
  /-- The message that migrates a contract to a new code. -/
  wasmMigrate : (contractAddr : String) → (newCodeId : U64) → (msg : String) → Cosmos.CosmosMsg
  passThroughTransferToJson : BridgeActionId → Wallet → List AssetAmount → String
  base64Encode : Bytes → String
  base64Decode : String → Option ByteArray
  solanaPubkeyFromStr : String → Option Solana.Pubkey
  findProgramAddress : (seeds : List Bytes) → (programId : Solana.Pubkey) → Solana.Pubkey × UInt8
  getAssociatedTokenAddress : (wallet mint tokenProgram : Solana.Pubkey) → Solana.Pubkey
  /-- Accounts and data of the loader's upgrade instruction. -/
  loaderUpgrade : (programId buffer authority spill : Solana.Pubkey) →
    List Solana.InstructionAccount × Bytes
  ethereumAddressFromStr : String → Option Ethereum.Address
  ethereumAddressToString : Ethereum.Address → String

variable (env : Externals)

namespace SignatureWithRecovery

/-- The key that made the signature over a message. -/
def validate (self : SignatureWithRecovery) (msg : ByteArray) : Except Error PublicKey :=
  fromOption .invalidSignature (env.recoverFromMsg msg self.sig self.recid)

end SignatureWithRecovery

def SignedTaggedJson.verifySignature {α : Type} (self : SignedTaggedJson α) :
    Except Error PublicKey :=
  self.signatureWithRecovery.validate env self.message.serialized.toByteArray

namespace ChainConfig

/-- The name of an asset: the first one configured with its id. -/
def denomOf (self : ChainConfig) (id : AssetId) : Except Error AssetName :=
  fromOption (.unsupportedAssetId id) ((self.assets.find? (·.assetId = id)).map Prod.fst)

end ChainConfig

/-! ## Cosmos -/

def coinsOf (config : ChainConfig) : List AssetAmount → Except Error (List Cosmos.Coin)
  | [] => .ok []
  | fund :: funds => do
    let denom ← config.denomOf fund.id
    let coins ← coinsOf config funds
    return ⟨denom, fund.amount.val⟩ :: coins

/-! ## Solana -/

namespace Solana

def TOKEN : Pubkey :=
  Fin.ofNat _ 0x06ddf6e1d765a193d9cbe146ceeb79ac1cb485ed5f5b37913a8cf5857eff00a9

def LOADER_V3 : Pubkey :=
  Fin.ofNat _ 0x02a8f6914e88a1b0e210153ef763ae2b00c2b93d16c124d2c0537a1004800000

def tokenHolderSeeds (mint : Pubkey) : List Bytes :=
  [tokenHolderSeed, Bytes.toBE 32 mint.val]

/-- A transfer of legacy tokens out of the account that holds them. -/
def transferPayload (id : U64) (programId mint recipient : Pubkey) (amount : U64) : Payload :=
  let holderSeeds := tokenHolderSeeds mint
  let (authority, bump) := env.findProgramAddress holderSeeds programId
  let fromAta := env.getAssociatedTokenAddress authority mint TOKEN
  let toAta := env.getAssociatedTokenAddress recipient mint TOKEN
  { id
    action := .execute
      { programId := TOKEN
        accounts := [⟨fromAta, true⟩, ⟨toAta, true⟩, ⟨authority, false⟩]
        instructionData := 3 :: Bytes.toLE 8 amount.val
        signer := some { index := 2, seeds := holderSeeds ++ [[bump]] } } }

def upgradePayload (id : U64) (programId buffer spill : Pubkey) : Payload :=
  let (authority, bump) := env.findProgramAddress [upgradeAuthoritySeed] programId
  let (accounts, data) := env.loaderUpgrade programId buffer authority spill
  { id
    action := .execute
      { programId := LOADER_V3
        accounts
        instructionData := data
        -- Last account is the authority which must be the signer
        signer := some
          { index := UInt8.ofNat (accounts.length - 1)
            seeds := [upgradeAuthoritySeed, [bump]] } } }

end Solana

def serializeSolanaPayload (payload : Solana.Payload) : Except Error String := do
  let buf ← fromOption (.codec "Solana bridge payload") (Solana.payloadCodec.encode payload)
  return env.base64Encode buf

def solanaPubkey (text : String) : Except Error Solana.Pubkey :=
  fromOption (.codec "Solana public key") (env.solanaPubkeyFromStr text)

/-- The transfer of the first of the funds. -/
def solanaTransfer (config : ChainConfig) (id : BridgeActionId) (recipient : Wallet)
    (funds : List AssetAmount) : Except Error String := do
  let coins ← coinsOf config funds
  let programId ← match config.bridge with
    | .neededCosmosBridge _ => .error .panic
    | .neededSolanaBridge programId => .ok programId
    | .neededEthereumBridge => .error .panic
    | .deployed programId => .ok programId
  match coins with
  | [] => .error .panic
  | coin :: _ =>
    let mint ← solanaPubkey env coin.denom
    let programId ← solanaPubkey env programId
    let recipient ← solanaPubkey env recipient
    ensure (coin.amount < 256 ^ 8) (.codec "amount")
    serializeSolanaPayload env
      (Solana.transferPayload env (Fin.ofNat _ id) programId mint recipient
        (Fin.ofNat _ coin.amount))

/-! ## Ethereum -/

namespace Ethereum

def ACTION_EXECUTE : UInt8 := 0
def ACTION_SELF_REPLACE : UInt8 := 1
def ACTION_NEW_SET : UInt8 := 2
def ETH_NATIVE_DENOM : String := "eth"

def abiEncodeU64AndBytes (value : U64) (data : Bytes) : Bytes :=
  Abi.encode [.uint value.val, .bytes data]

def abiEncodeU8AndBytes (value : UInt8) (data : Bytes) : Bytes :=
  Abi.encode [.uint value.toNat, .bytes data]

/-- The encoding of a structure with dynamic fields as a single value: its offset comes first. -/
def abiEncodeStruct (fields : List Abi.Field) : Bytes :=
  Bytes.toBE 32 32 ++ Abi.encode fields

def encodeExecuteAction (target : Address) (value : Nat) (data : Bytes) : Bytes :=
  abiEncodeU8AndBytes ACTION_EXECUTE (Abi.encode [.uint target.val, .uint value, .bytes data])

def address (text : String) : Except Kolme.Error Address :=
  fromOption (.codec "Ethereum address") (env.ethereumAddressFromStr text)

def normalizeEthereumDenom (denom : String) : Except Kolme.Error String :=
  if denom.toLower = ETH_NATIVE_DENOM then
    .ok ETH_NATIVE_DENOM
  else do
    return env.ethereumAddressToString (← address env denom)

def encodeActionTransferEth (recipient : String) (amount : U128) : Except Kolme.Error Bytes := do
  let recipient ← address env recipient
  return encodeExecuteAction recipient amount.val []

/-- The call of `transfer(address,uint256)`. -/
def transferCall (recipient : Address) (amount : U128) : Bytes :=
  [0xa9, 0x05, 0x9c, 0xbb] ++ Abi.encode [.uint recipient.val, .uint amount.val]

def encodeActionTransferErc20 (token recipient : String) (amount : U128) :
    Except Kolme.Error Bytes := do
  let token ← address env token
  let recipient ← address env recipient
  return encodeExecuteAction token 0 (transferCall recipient amount)

def keyBytes (key : PublicKey) : Bytes := Bytes.toBE 33 key.val

def encodeSelfReplaceAction (validatorType : ValidatorType) (current replacement : PublicKey) :
    Bytes :=
  let ty := match validatorType with
    | .listener => 0
    | .processor => 1
    | .approver => 2
  abiEncodeU8AndBytes ACTION_SELF_REPLACE
    (abiEncodeStruct [.uint ty, .bytes (keyBytes current), .bytes (keyBytes replacement)])

def signatureWithRecoveryToEthereumBytes (signature : SignatureWithRecovery) :
    Except Kolme.Error Bytes := do
  ensure (signature.recid ≤ 1) (.codec "Ethereum recovery id")
  return Bytes.toBE 64 signature.sig.val ++ [signature.recid + 27]

def signaturesToEthereumBytes : List SignatureWithRecovery → Except Kolme.Error (List Bytes)
  | [] => .ok []
  | approval :: approvals => do
    let bytes ← signatureWithRecoveryToEthereumBytes approval
    let rest ← signaturesToEthereumBytes approvals
    return bytes :: rest

def encodeNewSetAction (validatorSet : Kolme.ValidatorSet) (rendered : String)
    (approvals : List SignatureWithRecovery) : Except Kolme.Error Bytes := do
  let approvals ← signaturesToEthereumBytes approvals
  return abiEncodeU8AndBytes ACTION_NEW_SET (abiEncodeStruct
    [.bytes (keyBytes validatorSet.processor),
      .bytesArray ((validatorSet.listeners.sort (· ≤ ·)).map keyBytes),
      .uint validatorSet.neededListeners.val,
      .bytesArray ((validatorSet.approvers.sort (· ≤ ·)).map keyBytes),
      .uint validatorSet.neededApprovers.val,
      .bytes rendered.toByteArray.data.toList,
      .bytesArray approvals])

end Ethereum

def serializeEthereumPayload (id : BridgeActionId) (action : Bytes) : String :=
  env.base64Encode (Ethereum.abiEncodeU64AndBytes (Fin.ofNat _ id) action)

def ethereumTransfer (config : ChainConfig) (id : BridgeActionId) (recipient : Wallet)
    (funds : List AssetAmount) : Except Error String := do
  match funds with
  | [fund] =>
    let assetName ← config.denomOf fund.id
    let normalizedAssetName ← Ethereum.normalizeEthereumDenom env assetName
    let action ←
      if normalizedAssetName = Ethereum.ETH_NATIVE_DENOM then
        Ethereum.encodeActionTransferEth env recipient fund.amount
      else
        Ethereum.encodeActionTransferErc20 env normalizedAssetName recipient fund.amount
    return serializeEthereumPayload env id action
  | _ => .error (.conditionFailed "funds.len() == 1")

/-! ## All chains -/

namespace ExecAction

/-- The text that is signed and sent to the contract of a chain. -/
def toPayload (self : ExecAction) (chain : ExternalChain) (config : ChainConfig)
    (id : BridgeActionId) : Except Error String :=
  match self with
  | .transfer chain2 recipient funds => do
    ensure (chain = chain2) .panic
    match chain.name with
    | .cosmos =>
      let coins ← coinsOf config funds
      return env.cosmosPayloadToJson ⟨id, .cosmos [.bankSend recipient coins]⟩
    | .solana => solanaTransfer env config id recipient funds
    | .passThrough => return env.passThroughTransferToJson id recipient funds
    | .ethereum => ethereumTransfer env config id recipient funds
  | .selfReplace signed =>
    let rendered := signed.message.serialized
    let signature := signed.signatureWithRecovery
    match chain.name with
    | .cosmos => .ok (env.cosmosPayloadToJson ⟨id, .selfReplace rendered signature⟩)
    | .solana => serializeSolanaPayload env ⟨Fin.ofNat _ id, .selfReplace rendered signature⟩
    | .passThrough => .error .panic
    | .ethereum => do
      let inner := signed.message.value
      let current ← signed.verifySignature env
      return serializeEthereumPayload env id
        (Ethereum.encodeSelfReplaceAction inner.validatorType current inner.replacement)
  | .newSet validatorSet approvals =>
    let rendered := validatorSet.serialized
    match chain.name with
    | .cosmos => .ok (env.cosmosPayloadToJson ⟨id, .newSet rendered approvals⟩)
    | .solana => serializeSolanaPayload env ⟨Fin.ofNat _ id, .newSet rendered approvals⟩
    | .passThrough => .error .panic
    | .ethereum => do
      return serializeEthereumPayload env id
        (← Ethereum.encodeNewSetAction validatorSet.value rendered approvals)
  | .migrateContract migrate => do
    let contractAddr ← match config.bridge with
      | .deployed addr => .ok addr
      | _ => .error (.contractNotDeployed chain)
    match migrate.value with
    | .cosmos _ newCodeId message =>
      return env.cosmosPayloadToJson ⟨id, .cosmos [env.wasmMigrate contractAddr newCodeId message]⟩
    | .solana _ bufferAddress spillAddress =>
      let programId ← solanaPubkey env contractAddr
      serializeSolanaPayload env
        (Solana.upgradePayload env (Fin.ofNat _ id) programId bufferAddress spillAddress)

end ExecAction

namespace PendingBridgeAction

/-- Canonical bytes to be signed for this action. Most chains sign the payload itself; Ethereum
signs the bytes that it is the base64 text of. -/
def payloadBytesToSign (self : PendingBridgeAction) (chain : ExternalChain) :
    Except Error ByteArray :=
  match chain.name with
  | .ethereum =>
    fromOption (.codec "Ethereum bridge payload from base64") (env.base64Decode self.payload)
  | _ => .ok self.payload.toByteArray

end PendingBridgeAction

end Kolme
