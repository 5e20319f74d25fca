import Kolme.Core.Block
import Kolme.Core.Counter
import Kolme.Merkle.Layers
import Kolme.Store.KolmeStore

/-!
# The current block of a node

A node works with one block at a time: the latest that it knows, with the states after it. The
states are saved as layers under their hashes, and are loaded by the hashes in a block.
-/

namespace Kolme

open Merkle (MerkleContents MerkleLayerContents MerkleSerialError Sha256)

/-- How the states of a chain are serialized. -/
structure StateCodec (app : App) where
  frameworkState : FrameworkState → MerkleContents
  appState : app.State → MerkleContents
  logs : List (List String) → MerkleContents
  loadFrameworkState : MerkleContents → Except MerkleSerialError FrameworkState
  loadAppState : MerkleContents → Except MerkleSerialError app.State

/-- Why a block was not added. -/
inductive Failure
  | store (e : KolmeStoreError)
  | merkle (e : MerkleSerialError)
  | kolme (e : KolmeError)
  | execution (e : Error)
  /-- A check without a type of its own fails. -/
  | other (text : String)

section

variable [Sha256]

/-- The hash of a text. -/
def textHash (bytes : ByteArray) : Sha256Hash := Sha256.hash bytes.data.toList

variable {M : Type}

def SignedTaggedJson.hash {α : Type} (self : SignedTaggedJson α) : Sha256Hash :=
  self.messageHash textHash

def SignedTaggedJson.parent (self : SignedBlock M) : BlockHash := self.message.value.parent

/-- Ensure the max height is respected if present. -/
def SignedTaggedJson.checkMaxHeight (self : SignedTransaction M) (height : BlockHeight) :
    Except Failure Unit :=
  match self.message.value.maxHeight with
  | some maxHeight =>
    Except.ensure (¬maxHeight < height) (.kolme (.pastMaxHeight self.hash maxHeight height))
  | none => .ok ()

/-- The block as it is handed to the store. -/
def StorableBlock.of (block : SignedBlock M) : StorableBlock (SignedBlock M) where
  height := block.height
  blockhash := block.hash
  txhash := block.tx.hash
  block := block

end

/-! ## The current block -/

/-- The latest block that a node knows, by its hash, and the states after it. -/
structure BlockState (app : App) where
  blockhash : BlockHash
  node : Node app

/-- What the execution of a block led to, with the block. -/
structure ExecutedBlock (app : App) where
  signedBlock : SignedBlock app.Message
  frameworkState : FrameworkState
  appState : app.State
  logs : List (List String)

namespace BlockState

variable [Sha256] {app : App}

/-- The states after a block, from its hashes. -/
def load (codec : StateCodec app) (layers : MerkleLayers) (block : SignedBlock app.Message) :
    Except Failure (BlockState app) := do
  let frameworkState ← (do
    codec.loadFrameworkState (← layers.load block.message.value.frameworkState)).mapError .merkle
  let appState ← (do
    codec.loadAppState (← layers.load block.message.value.appState)).mapError .merkle
  return {
    blockhash := block.hash
    node := { frameworkState, appState, nextHeight := block.height + 1, history := [] } }

/-- The states after a block that was executed. -/
def ofExecuted (block : ExecutedBlock app) : BlockState app where
  blockhash := block.signedBlock.hash
  node := {
    frameworkState := block.frameworkState
    appState := block.appState
    nextHeight := block.signedBlock.height + 1
    history := [] }

end BlockState

/-- The later of two blocks. -/
def BlockState.later {app : App} (current new : BlockState app) : BlockState app :=
  if current.node.nextHeight < new.node.nextHeight then new else current

theorem BlockState.le_later {app : App} (current new : BlockState app) :
    current.node.nextHeight ≤ (current.later new).node.nextHeight := by
  unfold later
  split
  · exact le_of_lt ‹_›
  · exact le_rfl

theorem BlockState.new_le_later {app : App} (current new : BlockState app) :
    new.node.nextHeight ≤ (current.later new).node.nextHeight := by
  unfold later
  split
  · exact le_rfl
  · exact Nat.not_lt.mp ‹_›

/-! ## A sample -/

namespace Json

def hash (h : Sha256Hash) : String := hex 64 h.val

/-- A block of the time zero, without loads. -/
def block (b : Block Unit) : String :=
  object [("tx", signed b.tx), ("timestamp", string "1970-01-01T00:00:00Z"),
    ("processor", publicKey b.processor), ("height", toString b.height), ("parent", hash b.parent),
    ("framework_state", hash b.frameworkState), ("app_state", hash b.appState),
    ("logs", hash b.logs), ("loads", array [])]

end Json

namespace NodeSample

open Sample

def chain : App := counter (info validators)

/-- The serialized states play no part. -/
def codec : StateCodec chain where
  frameworkState _ := .mk [] []
  appState _ := .mk [] []
  logs _ := .mk [] []
  loadFrameworkState _ := .error .panic
  loadAppState _ := .error .panic

/-- Blocks stand for themselves under their own hashes. -/
scoped instance : MerkleHashed (StorableBlock (SignedBlock chain.Message)) where
  contentHash b := b.blockhash

/-- The texts of blocks play no part. -/
scoped instance : Rendered (SignedBlock chain.Message) where
  toText _ := ""
  fromText _ := none

end NodeSample

end Kolme
