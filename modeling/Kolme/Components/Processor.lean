import Kolme.Components.Current

/-!
# Processors that share a store

A processor adds a transaction in several steps: it takes the construct lock, reloads the latest
block, looks the transaction up, executes it on its current block, and stores the block that it
signs. What the other processors and the sync of each node do meanwhile comes between any two
operations on the store.
-/

namespace Kolme

open Merkle (Sha256)

variable {app : App}

/-- The functions of libraries that a processor uses. -/
structure ProcessorTools (app : App) where
  env : Externals
  codec : StateCodec app
  blockToJson : Block app.Message → Except Error String
  failedToJson : FailedTransaction → Except Error String
  /-- What a notice says about an error. -/
  describe : Failure → KolmeError

structure Processor where
  secrets : PublicKey → Option SecretKey
  codeVersion : String

namespace Processor

def getCorrectSecret (self : Processor) (kolme : BlockState app) : Except Failure SecretKey :=
  match self.secrets kolme.node.frameworkState.validatorSet.processor with
  | some secret => .ok secret
  | none => .error (.other "no matching secret key")

variable [Sha256] (tools : ProcessorTools app) (self : Processor)

/-- The rest of `construct_block`, once the transaction was executed. -/
def signBlock (kolme : BlockState app) (secret : SecretKey) (tx : SignedTransaction app.Message)
    (proposedHeight : BlockHeight) (now : Timestamp) (results : ExecutionResults app.State) :
    Except Failure (ExecutedBlock app) := do
  Except.ensure (results.height = proposedHeight) (.other "height == proposed_height")
  tx.checkMaxHeight proposedHeight
  let approvedBlock : Block app.Message := {
    tx
    timestamp := now
    processor := secret.publicKey
    height := proposedHeight
    parent := kolme.blockhash
    frameworkState := (tools.codec.frameworkState results.frameworkState).hash
    appState := (tools.codec.appState results.appState).hash
    logs := (tools.codec.logs results.logs).hash
    loads := results.loads }
  let json ← (tools.blockToJson approvedBlock).mapError .execution
  let signedBlock ← (TaggedJson.sign ⟨json, approvedBlock⟩ secret).mapError .execution
  return {
    signedBlock
    frameworkState := results.frameworkState
    appState := results.appState
    logs := results.logs }

/-- A block with a transaction, given the block that is worked with and what the store says about
the transaction. -/
def constructBlock (kolme : BlockState app)
    (stored : Except KolmeStoreError (Option BlockHeight)) (tx : SignedTransaction app.Message)
    (proposedHeight : BlockHeight) (now : Timestamp) (world : app.World) :
    Except Failure (ExecutedBlock app) := do
  let secret ← self.getCorrectSecret kolme
  match ← stored.mapError .store with
  | some _ => throw (.store (.txAlreadyInDb tx.hash))
  | none =>
    let results ← (kolme.node.executeTransaction tools.env {
      tx
      timestamp := now
      handling := .noPriorData
      codeVersion := self.codeVersion
      world }).mapError .execution
    signBlock tools kolme secret tx proposedHeight now results

/-- The notice that a transaction failed. -/
def failedTransaction (kolme : BlockState app) (tx : SignedTransaction app.Message)
    (proposedHeight : BlockHeight) (e : Failure) :
    Except Failure (SignedTaggedJson FailedTransaction) := do
  let failed : FailedTransaction := {
    txhash := tx.hash
    proposedHeight
    error := tools.describe e }
  let json ← (tools.failedToJson failed).mapError .execution
  let key ← self.getCorrectSecret kolme
  (TaggedJson.sign ⟨json, failed⟩ key).mapError .execution

end Processor

/-! ## Tasks -/

/-- What a processor does next with a transaction. -/
inductive Task (app : App)
  | idle
  /-- Has the construct lock, and asks for the latest height -/
  | resync (tx : SignedTransaction app.Message)
  /-- Loads the latest block -/
  | adopt (tx : SignedTransaction app.Message) (height : BlockHeight)
  /-- Looks the transaction up -/
  | lookup (tx : SignedTransaction app.Message)
  | propose (tx : SignedTransaction app.Message)
  /-- Fixes the block to work with -/
  | read (tx : SignedTransaction app.Message) (proposedHeight : BlockHeight)
  | construct (tx : SignedTransaction app.Message) (proposedHeight : BlockHeight)
    (kolme : BlockState app)
  /-- Saves the states and stores the block -/
  | add (tx : SignedTransaction app.Message) (proposedHeight : BlockHeight)
    (block : ExecutedBlock app)
  /-- Takes the stored block as the current one -/
  | update (block : ExecutedBlock app)
  | failed (tx : SignedTransaction app.Message) (proposedHeight : BlockHeight) (e : Failure)

/-- Several nodes with a processor each, one store, and the notices that were published. The archive
mark of the store plays no part here. -/
structure Cluster (app : App) where
  store : KolmeStore (SignedBlock app.Message)
  layers : MerkleLayers
  /-- Who has the construct lock, where there is one -/
  lock : Option ℕ
  current : ℕ → BlockState app
  task : ℕ → Task app
  notices : List (SignedTaggedJson FailedTransaction)

inductive ClusterEvent (app : App)
  /-- A processor gets a transaction, and the construct lock. -/
  | begin (i : ℕ) (tx : SignedTransaction app.Message)
  /-- A processor goes on. -/
  | proceed (i : ℕ) (now : Timestamp) (world : app.World)
  /-- Sync saves a layer. -/
  | addLayer (hash : Sha256Hash) (layer : Merkle.MerkleLayerContents)
  /-- Sync hands a block to the store, after its own checks. So does a processor with the genesis
  block, for which it does not take the construct lock. -/
  | addBlock (block : SignedBlock app.Message)
  /-- A node takes a stored block as its current one, unless it has a later one. -/
  | adopt (i : ℕ) (height : BlockHeight)

/-- Whether the construct lock of a backing store locks. -/
def Backend.locks : Backend → Bool
  | .inMemory | .postgres => true
  | .fjall => false

namespace Cluster

def setTask (self : Cluster app) (i : ℕ) (task : Task app) : Cluster app :=
  { self with task := Function.update self.task i task }

def setCurrent (self : Cluster app) (i : ℕ) (kolme : BlockState app) : Cluster app :=
  { self with current := Function.update self.current i ((self.current i).later kolme) }

/-- A processor is done, and drops the construct lock. -/
def finish (self : Cluster app) (i : ℕ) : Cluster app :=
  { self.setTask i .idle with lock := if self.lock = some i then none else self.lock }

variable [Sha256] [MerkleHashed (StorableBlock (SignedBlock app.Message))]
  [Rendered (SignedBlock app.Message)] (tools : ProcessorTools app) (backend : Backend)
  (processors : ℕ → Processor)

/-- Hand a block to the store. -/
def storeBlock (self : Cluster app) (block : SignedBlock app.Message) :
    Except KolmeStoreError Unit × Cluster app :=
  let (result, store) := KolmeStore.addBlock (.of block) self.store
  (result, { self with store })

def saveStates (self : Cluster app) (block : ExecutedBlock app) : Cluster app :=
  { self with layers := ((self.layers.save (tools.codec.frameworkState block.frameworkState)).save
      (tools.codec.appState block.appState)).save (tools.codec.logs block.logs) }

/-- Load a stored block with its states. -/
def loadState (self : Cluster app) (height : BlockHeight) : Except Failure (BlockState app) := do
  match ← (KolmeStore.loadBlock self.store height).mapError .store with
  | none => throw (.other "Expected block not found during resync")
  | some block => BlockState.load tools.codec self.layers block.block

/-- The next step of a processor. -/
def proceed (self : Cluster app) (i : ℕ) (now : Timestamp) (world : app.World) : Cluster app :=
  match self.task i with
  | .idle => self
  | .resync tx =>
    match KolmeBackingStore.loadLatestBlock self.store with
    | .error _ => self.finish i
    | .ok none => self.setTask i (.lookup tx)
    | .ok (some height) =>
      if (self.current i).node.nextHeight < height + 1 then self.setTask i (.adopt tx height)
      else self.setTask i (.lookup tx)
  | .adopt tx height =>
    match self.loadState tools height with
    | .error _ => self.finish i
    | .ok kolme => (self.setCurrent i kolme).setTask i (.lookup tx)
  | .lookup tx =>
    match KolmeBackingStore.getHeightForTx self.store tx.hash with
    | .error _ => self.finish i
    | .ok (some _) => self.finish i
    | .ok none => self.setTask i (.propose tx)
  | .propose tx => self.setTask i (.read tx (self.current i).node.nextHeight)
  | .read tx proposedHeight => self.setTask i (.construct tx proposedHeight (self.current i))
  | .construct tx proposedHeight kolme =>
    match (processors i).constructBlock tools kolme
        (KolmeBackingStore.getHeightForTx self.store tx.hash) tx proposedHeight now world with
    | .error e => self.setTask i (.failed tx proposedHeight e)
    | .ok block => self.setTask i (.add tx proposedHeight block)
  | .add tx proposedHeight block =>
    match (self.saveStates tools block).storeBlock block.signedBlock with
    | (.error e, self) => self.setTask i (.failed tx proposedHeight (.store e))
    | (.ok (), self) => self.setTask i (.update block)
  | .update block => (self.setCurrent i (.ofExecuted block)).finish i
  -- The construct lock should have prevented a conflict.
  | .failed _ _ (.store (.conflictingBlockInDb ..)) => self.finish i
  | .failed tx proposedHeight e =>
    match (processors i).failedTransaction tools (self.current i) tx proposedHeight e with
    | .error _ => self.finish i
    | .ok notice => { self with notices := self.notices ++ [notice] }.finish i

/-- What happens in an event; one that is not possible changes nothing. -/
def step (self : Cluster app) : ClusterEvent app → Cluster app
  | .begin i tx =>
    match self.task i with
    | .idle =>
      if backend.locks then
        match self.lock with
        | none => { self.setTask i (.resync tx) with lock := some i }
        | some _ => self
      else self.setTask i (.resync tx)
    | _ => self
  | .proceed i now world => self.proceed tools processors i now world
  | .addLayer hash layer => { self with layers := self.layers.insert hash layer }
  | .addBlock block => (self.storeBlock block).2
  | .adopt i height =>
    match self.loadState tools height with
    | .error _ => self
    | .ok kolme => self.setCurrent i kolme

def machine : Machine (Cluster app) (ClusterEvent app) Empty where
  step self event := .ok (self.step tools backend processors event)

/-- A new store, and nodes at the genesis. -/
def start (genesis : Node app) : Cluster app where
  store := .new backend
  layers := .empty
  lock := none
  current _ := ⟨BlockHash.genesisParent textHash, genesis⟩
  task _ := .idle
  notices := []

end Cluster

end Kolme
