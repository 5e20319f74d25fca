import Kolme.Core.Execute

/-!
# Blocks and notifications

A block holds one transaction with the hashes of what its execution led to. The processor also
signs notifications: which block is the latest, and which transactions failed.
-/

namespace Kolme

open Except

abbrev BlockHash := Sha256Hash
abbrev TxHash := Sha256Hash

/-! ## Signing -/

/-- A key that can sign. -/
structure SecretKey where
  publicKey : PublicKey
  signRecoverable : ByteArray → Except Error SignatureWithRecovery

def TaggedJson.sign {α : Type} (self : TaggedJson α) (key : SecretKey) :
    Except Error (SignedTaggedJson α) := do
  let sig ← key.signRecoverable self.serialized.toByteArray
  return ⟨self, sig.sig, sig.recid⟩

/-! ## Blocks -/

/-- A block containing a single transaction. -/
structure Block (M : Type) where
  tx : SignedTransaction M
  timestamp : Timestamp
  processor : PublicKey
  height : BlockHeight
  parent : BlockHash
  /-- New framework state at the end of execution -/
  frameworkState : Sha256Hash
  /-- New app state at the end of execution -/
  appState : Sha256Hash
  /-- The log messages generated when executing this block. -/
  logs : Sha256Hash
  /-- Any data loads that were used for execution. -/
  loads : List BlockDataLoad

abbrev SignedBlock (M : Type) := SignedTaggedJson (Block M)

/-- Why a transaction was not added, as the processor reports it. -/
inductive KolmeError
  | invalidNonce (pubkey : PublicKey) (accountId : AccountId) (expected actual : AccountNonce)
  | pastMaxHeight (txhash : TxHash) (maxHeight proposedHeight : BlockHeight)
  | invalidBlockHeight (start «end» : BlockHeight)
  | other (text : String)
deriving DecidableEq

structure FailedTransaction where
  txhash : TxHash
  /-- Block height we attempted to generate. -/
  proposedHeight : BlockHeight
  error : KolmeError
deriving DecidableEq

structure LatestBlock where
  height : BlockHeight
  /-- When this message was generated. -/
  «when» : Timestamp
deriving DecidableEq

section

variable (sha256 : ByteArray → Sha256Hash)

/-- The hash of the text that is signed. -/
def SignedTaggedJson.messageHash {α : Type} (self : SignedTaggedJson α) : Sha256Hash :=
  sha256 self.message.serialized.toByteArray

/-- Special parent for the genesis block. -/
def BlockHash.genesisParent : BlockHash := sha256 "genesis parent".toByteArray

end

namespace SignedTaggedJson

variable {M : Type} (env : Externals)

def height (self : SignedBlock M) : BlockHeight := self.message.value.height

def tx (self : SignedBlock M) : SignedTransaction M := self.message.value.tx

/-- A block is signed by the processor that it names. -/
def validateSignature (self : SignedBlock M) : Except Error Unit := do
  let pubkey ← self.verifySignature env
  ensure (pubkey = self.message.value.processor)
    (.conditionFailed "pubkey == self.0.message.as_inner().processor")

end SignedTaggedJson

end Kolme
