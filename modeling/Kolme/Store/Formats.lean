import Kolme.Merkle.NodeFormat
import Kolme.Store.Interface

/-!
# The formats of the framework state

The types of the framework state are serialized field by field, most of them with a version number
in front. The maps that the program keeps as Merkle maps are sorted maps here: a Merkle map is built
from their entries to serialize them.
-/

namespace Kolme

open Exec Merkle MerkleDeserializer MerkleSerializer

variable {K V : Type}

/-! ## Keys -/

/-- A big-endian number of eight bytes. -/
def fromBE8 (bytes : Bytes) : Except MerkleSerialError ℕ := do
  Except.ensure (bytes.length = 8) (.custom "could not convert slice to array")
  return Bytes.ofBE bytes

instance : ToMerkleKey U64 := ⟨fun n => ⟨Bytes.toBE 8 n⟩⟩
instance : FromMerkleKey U64 := ⟨fun bytes => do return Fin.ofNat _ (← fromBE8 bytes)⟩

instance : ToMerkleKey ℕ := ⟨fun n => ⟨Bytes.toBE 8 n⟩⟩
instance : FromMerkleKey ℕ := ⟨fromBE8⟩

def ExternalChain.all : List ExternalChain :=
  [osmosisTestnet, neutronTestnet, osmosisLocal, solanaMainnet, solanaTestnet, solanaDevnet,
    solanaLocal, ethereumMainnet, ethereumSepolia, ethereumLocal, passThrough]

/-- The chain with a name. -/
def ExternalChain.parse (name : String) : Except MerkleSerialError ExternalChain :=
  Except.fromOption (.custom "Matching variant not found") (all.find? (·.asRef = name))

instance : ToMerkleKey ExternalChain := ⟨fun chain => ⟨utf8 chain.asRef⟩⟩
instance : FromMerkleKey ExternalChain := ⟨fun bytes => do ExternalChain.parse (← fromUtf8 bytes)⟩

/-! ## Merkle maps -/

/-- Insert entries one after another. -/
def Merkle.MerkleMap.fromIter [ToMerkleKey K] (entries : List (K × V)) : Option (MerkleMap K V) :=
  entries.foldlM (fun map entry => (map.insert entry.1 entry.2).map Prod.fst) .new

section

variable [LinearOrder K] [ToMerkleKey K] [FromMerkleKey K] [MerkleSerializeRaw V]
  [MerkleDeserializeRaw V] [Sha256]

/-- The Merkle map with some entries. -/
def toMerkleMap (m : SortedMap K V) : MerkleMap K V := (MerkleMap.fromIter m.toList).getD .new

def storeMerkleMap (m : SortedMap K V) : MerkleSerializer := store (toMerkleMap m)

def loadMerkleMap : Load (SortedMap K V) := do
  let map : MerkleMap K V ← load
  return SortedMap.ofList (map.node.entries.map LeafEntry.pair)

end

/-! ## JSON -/

section

variable {α : Type} [Rendered α]

def storeJson (a : α) : MerkleSerializer := storeSlice (utf8 (Rendered.toText a))

def loadJson : Load α := do
  let text ← lift (fromUtf8 (← loadBytes))
  fromOption (.custom "invalid JSON") (Rendered.fromText text)

instance : MerkleSerializeRaw (TaggedJson α) := ⟨fun json => store json.serialized⟩
instance : MerkleDeserializeRaw (TaggedJson α) :=
  ⟨do
    let serialized ← load
    let value ← fromOption (.custom "invalid JSON") (Rendered.fromText serialized)
    return { serialized, value }⟩

variable [ByteFormats]

instance : MerkleSerialize (SignedTaggedJson α) where
  merkleSerialize self := store self.message ++ store self.signature ++ storeByte self.recoveryId

instance : MerkleDeserialize (SignedTaggedJson α) where
  merkleDeserialize _ := do
    let message ← load
    let signature ← load
    let recoveryId ← loadRecoveryId
    return { message, signature, recoveryId }

/-- The block has a version number of its own, and so has the signed text in it. -/
def storeSignedBlock (block : SignedTaggedJson α) : MerkleSerializer := storeUsize 0 ++ store block

def loadSignedBlock : Load (SignedTaggedJson α) := do
  let version ← loadUsize
  if version > 0 then throw (.unexpectedVersion 0 version (← get).pos) else load

instance : MerkleSerialize (StorableBlock (SignedTaggedJson α)) where
  merkleSerialize self :=
    store self.height ++ store self.blockhash ++ store self.txhash ++ storeSignedBlock self.block
  merkleVersion := 2

instance : MerkleDeserialize (StorableBlock (SignedTaggedJson α)) where
  merkleDeserialize version := do
    let height ← load
    let blockhash ← load
    let txhash ← load
    let block ← loadSignedBlock
    -- Older versions had more fields.
    if version < 2 then ignoreRemaining
    return { height, blockhash, txhash, block }

end

/-! ## Validators, chains and proposals -/

section

variable [ByteFormats]

instance : MerkleSerializeRaw ValidatorSet where
  merkleSerializeRaw self :=
    store self.processor ++ store self.listeners ++ store self.neededListeners ++
      store self.approvers ++ store self.neededApprovers

instance : MerkleDeserializeRaw ValidatorSet where
  merkleDeserializeRaw := do
    let processor ← load
    let listeners ← load
    let neededListeners ← load
    let approvers ← load
    let neededApprovers ← load
    return { processor, listeners, neededListeners, approvers, neededApprovers }

instance : MerkleSerialize ExternalChain := ⟨fun chain => store chain.asRef, 0⟩
instance : MerkleDeserialize ExternalChain :=
  ⟨fun _ => do lift (ExternalChain.parse (← lift (fromUtf8 (← loadBytes))))⟩

instance : MerkleSerialize AssetConfig where
  merkleSerialize self := store self.decimals ++ store self.assetId

instance : MerkleDeserialize AssetConfig where
  merkleDeserialize _ := do
    let decimals ← load
    let assetId ← load
    return { decimals, assetId }

instance : MerkleSerialize BridgeContract where
  merkleSerialize
    | .neededCosmosBridge codeId => storeByte 0 ++ store codeId
    | .neededSolanaBridge programId => storeByte 1 ++ store programId
    | .neededEthereumBridge => storeByte 3
    | .deployed contract => storeByte 2 ++ store contract

instance : MerkleDeserialize BridgeContract where
  merkleDeserialize _ := do
    let byte ← popByte
    if byte = 0 then return .neededCosmosBridge (← load)
    else if byte = 1 then return .neededSolanaBridge (← load)
    else if byte = 2 then return .deployed (← load)
    else if byte = 3 then return .neededEthereumBridge
    else throw (.unexpectedMagicByte byte)

instance : MerkleSerialize ChainConfig where
  merkleSerialize self := store self.assets ++ store self.bridge

instance : MerkleDeserialize ChainConfig where
  merkleDeserialize _ := do
    let assets ← load
    let bridge ← load
    return { assets, bridge }

instance : MerkleSerialize PendingBridgeAction where
  merkleSerialize self := store self.payload ++ store self.approvals ++ store self.processor

instance : MerkleDeserialize PendingBridgeAction where
  merkleDeserialize _ := do
    let payload ← load
    let approvals ← load
    let processor ← load
    return { payload, approvals, processor }

variable [Rendered BridgeEvent]

instance : MerkleSerialize PendingBridgeEvent where
  merkleSerialize self := storeJson self.event ++ store self.attestations

instance : MerkleDeserialize PendingBridgeEvent where
  merkleDeserialize _ := do
    let event ← loadJson
    let attestations ← load
    return { event, attestations }

variable [Rendered ValidatorSet] [Rendered MigrateContract] [Rendered Upgrade]

instance : MerkleSerialize ProposalPayload where
  merkleSerialize
    | .newSet set => storeByte 0 ++ store set
    | .migrateContract migrate => storeByte 1 ++ store migrate
    | .upgrade upgrade => storeByte 2 ++ store upgrade

instance : MerkleDeserialize ProposalPayload where
  merkleDeserialize _ := do
    let byte ← popByte
    if byte = 0 then return .newSet (← load)
    else if byte = 1 then return .migrateContract (← load)
    else if byte = 2 then return .upgrade (← load)
    else throw (.unexpectedMagicByte byte)

instance : MerkleSerialize PendingProposal where
  merkleSerialize self := store self.payload ++ store self.approvals

instance : MerkleDeserialize PendingProposal where
  merkleDeserialize _ := do
    let payload ← load
    let approvals ← load
    return { payload, approvals }

instance : MerkleSerialize AdminProposalState where
  merkleSerialize self := store self.nextAdminProposalId ++ store self.proposals

instance : MerkleDeserialize AdminProposalState where
  merkleDeserialize _ := do
    let nextAdminProposalId ← load
    let proposals ← load
    return { nextAdminProposalId, proposals }

variable [Sha256]

instance : MerkleSerialize ChainState where
  merkleSerialize self :=
    store self.config ++ store self.nextActionId ++ storeMerkleMap self.pendingActions ++
      store self.nextEventId ++ storeMerkleMap self.pendingEvents ++ store self.assets

instance : MerkleDeserialize ChainState where
  merkleDeserialize _ := do
    let config ← load
    let nextActionId ← load
    let pendingActions ← loadMerkleMap
    let nextEventId ← load
    let pendingEvents ← loadMerkleMap
    let assets ← load
    return { config, nextActionId, pendingActions, nextEventId, pendingEvents, assets }

end

/-! ## Accounts -/

section

variable [ByteFormats]

instance : MerkleSerialize Account where
  merkleSerialize self :=
    store self.assets ++ store self.wallets ++ store self.pubkeys ++ store self.nextNonce

instance : MerkleDeserialize Account where
  merkleDeserialize _ := do
    let assets ← load
    let wallets ← load
    let pubkeys ← load
    let nextNonce ← load
    return { assets, wallets, pubkeys, nextNonce }

/-- The lower-case hexadecimal digits of a key. -/
def PublicKey.toHex (key : PublicKey) : String :=
  let shown := Nat.toDigits 16 key.val
  String.ofList (List.replicate (66 - shown.length) '0' ++ shown)

/-- The entries of a reverse map that lead to an account. None of the keys may be in it already. -/
def Accounts.reverse [LinearOrder K] (describe : K → String) (id : AccountId) :
    List K → SortedMap K AccountId → Except MerkleSerialError (SortedMap K AccountId)
  | [], map => .ok map
  | key :: keys, map =>
    match map.get? key with
    | some id2 => .error (.other
        (describe key ++ " used in both account " ++ toString id.val ++ " and " ++ toString id2.val))
    | none => reverse describe id keys (map.insert key id)

/-- The reverse maps, which are not stored. -/
def Accounts.rebuild : List (AccountId × Account) → SortedMap Wallet AccountId →
    SortedMap PublicKey AccountId →
    Except MerkleSerialError (SortedMap Wallet AccountId × SortedMap PublicKey AccountId)
  | [], wallets, pubkeys => .ok (wallets, pubkeys)
  | (id, account) :: accounts, wallets, pubkeys => do
    let wallets ← reverse ("Wallet " ++ ·) id (account.wallets.sort (· ≤ ·)) wallets
    let pubkeys ← reverse ("Pubkey " ++ PublicKey.toHex ·) id (account.pubkeys.sort (· ≤ ·)) pubkeys
    rebuild accounts wallets pubkeys

variable [Sha256]

instance : MerkleSerialize Accounts where
  merkleSerialize self := storeMerkleMap self.accounts

instance : MerkleDeserialize Accounts where
  merkleDeserialize _ := do
    let accounts ← loadMerkleMap
    let (wallets, pubkeys) ← lift (Accounts.rebuild accounts.toList ∅ ∅)
    return { accounts, wallets, pubkeys }

end

/-! ## The framework state -/

section

variable [ByteFormats] [Rendered BridgeEvent] [Rendered ValidatorSet] [Rendered MigrateContract]
  [Rendered Upgrade] [Sha256]

/-- The chains have a version number of their own. -/
def storeChains (chains : SortedMap ExternalChain ChainState) : MerkleSerializer :=
  storeUsize 0 ++ storeMerkleMap chains

def loadChains : Load (SortedMap ExternalChain ChainState) := do
  let version ← loadUsize
  if version > 0 then throw (.unexpectedVersion 0 version (← get).pos) else loadMerkleMap

instance : MerkleSerialize FrameworkState where
  merkleSerialize self :=
    store self.validatorSet ++ storeChains self.chains ++ store self.accounts ++
      store self.adminProposalState ++ store self.version

instance : MerkleDeserialize FrameworkState where
  merkleDeserialize _ := do
    let validatorSet ← load
    let chains ← loadChains
    let accounts ← load
    let adminProposalState ← load
    let version ← load
    return { validatorSet, chains, accounts, adminProposalState, version }

end

end Kolme
