import Kolme.Components.Current

/-!
# Adding blocks to a node

A node adds the next block by executing it, and a block whose states it has already by the
processor's signature alone. Only executed blocks and a resync change the block that the node works
with.
-/

namespace Kolme

open Merkle (MerkleLayerContents MerkleContents Sha256)

variable {app : App}

/-- What a node keeps: blocks, layers, and the latest block that it works with. -/
structure KolmeInner (app : App) where
  store : KolmeStore (SignedBlock app.Message)
  layers : MerkleLayers
  currentBlock : BlockState app

/-- The functions of libraries that a node uses, and the version of its code. -/
structure KolmeTools (app : App) where
  env : Externals
  codec : StateCodec app
  codeVersion : String

def KolmeStoreInner.backend {β : Type} : KolmeStoreInner β → Backend
  | inMemory _ => .inMemory
  | fjall _ => .fjall
  | postgres _ => .postgres

variable [Sha256]

/-- Save one layer. The stores differ in what they do with a layer whose hash is there already: the
in-memory store asserts that it is the same layer. -/
def MerkleLayers.saveByHash (backend : Backend) (layers : MerkleLayers)
    (layer : MerkleLayerContents) : Except Failure MerkleLayers :=
  match layers.get? layer.hash with
  | none => .ok (layers.insert layer.hash layer)
  | some value =>
    match backend with
    | .inMemory => if value = layer then .ok layers else .error (.execution .panic)
    | .fjall => .ok (layers.insert layer.hash layer)
    | .postgres => .ok layers

/-- The processor that a state expects blocks from. -/
def BlockState.processor (kolme : BlockState app) : PublicKey :=
  kolme.node.frameworkState.validatorSet.processor

namespace KolmeInner

variable [MerkleHashed (StorableBlock (SignedBlock app.Message))]
  [Rendered (SignedBlock app.Message)]

/-- Check if the given Merkle hash is stored. -/
def hasMerkleHash (self : KolmeInner app) (hash : Sha256Hash) : Bool := self.layers.contains hash

/-- Check if the given block is available in storage. -/
def hasBlock (height : BlockHeight) : Exec Failure (KolmeInner app) Bool := do
  let self ← Exec.get
  Exec.lift ((KolmeBackingStore.hasBlock self.store height).mapError .store)

def archiveBlock (height : BlockHeight) : Exec Failure (KolmeInner app) Unit := fun self =>
  let (result, store) := KolmeBackingStore.archiveBlock height self.store
  (result.mapError .store, { self with store })

/-- Hand a block to the store. -/
def storeBlock (block : SignedBlock app.Message) : Exec Failure (KolmeInner app) Unit := fun self =>
  let (result, store) := KolmeStore.addBlock (.of block) self.store
  (result.mapError .store, { self with store })

/-- Add a Merkle layer, all children of which have to be stored. -/
def addMerkleLayer (layer : MerkleLayerContents) : Exec Failure (KolmeInner app) Unit := do
  let self ← Exec.get
  Exec.ensure (∀ child ∈ layer.children, self.hasMerkleHash child = true)
    (.other "self.has_merkle_hash(*child).await?")
  let layers ← Exec.lift (self.layers.saveByHash self.store.inner.backend layer)
  Exec.modify fun self => { self with layers }

def save (contents : MerkleContents) : Exec Failure (KolmeInner app) Sha256Hash := do
  Exec.modify fun self => { self with layers := self.layers.save contents }
  return contents.hash

variable (tools : KolmeTools app)

/-- Load the latest block of the store if it is later than the current one. -/
def resync : Exec Failure (KolmeInner app) Unit := do
  let self ← Exec.get
  match ← Exec.lift ((KolmeBackingStore.loadLatestBlock self.store).mapError .store) with
  | none => return ()
  | some height =>
    if self.currentBlock.node.nextHeight < height + 1 then do
      let block ← Exec.lift ((KolmeStore.loadBlock self.store height).mapError .store)
      let block ← Exec.fromOption (.other "Expected block not found during resync") block
      let kolme ← Exec.lift (BlockState.load tools.codec self.layers block.block)
      Exec.modify fun self => { self with currentBlock := self.currentBlock.later kolme }
    else return ()

/-- Mark blocks as archived, from a height up to the first that is not stored. -/
def archiveFrom : (fuel : ℕ) → BlockHeight → Exec Failure (KolmeInner app) BlockHeight
  | 0, _ => Exec.throw (.other "out of fuel")
  | fuel + 1, next => do
    if ← hasBlock next then do
      archiveBlock next
      archiveFrom fuel (next + 1)
    else return next

/-- Get the next block to archive. No block is stored above the latest, which bounds the rounds. -/
def getNextToArchive : Exec Failure (KolmeInner app) BlockHeight := do
  let self ← Exec.get
  let archived ← Exec.lift
    ((KolmeBackingStore.getLatestArchivedBlockHeight self.store).mapError .store)
  let latest ← Exec.lift ((KolmeBackingStore.loadLatestBlock self.store).mapError .store)
  archiveFrom (latest.elim 1 (· + 2)) (archived.elim 0 (· + 1))

/-- Take an executed block as the current one, and mark it as archived if all below are. -/
def updateCurrent (block : ExecutedBlock app) : Exec Failure (KolmeInner app) Unit := do
  if block.signedBlock.height < (← Exec.get).currentBlock.node.nextHeight then return ()
  else do
    Exec.modify fun self => { self with currentBlock := .ofExecuted block }
    if (← getNextToArchive) = block.signedBlock.height then
      -- That the block cannot be marked is no error.
      fun self => (.ok (), (archiveBlock block.signedBlock.height self).2)
    else return ()

/-- Add a block that has already been executed. -/
def addExecutedBlock (block : ExecutedBlock app) : Exec Failure (KolmeInner app) Unit := do
  let contents := block.signedBlock.message.value
  let frameworkStateHash ← save (tools.codec.frameworkState block.frameworkState)
  Exec.ensure (frameworkStateHash = contents.frameworkState)
    (.other "framework_state_hash == signed_block.0.message.as_inner().framework_state")
  let appStateHash ← save (tools.codec.appState block.appState)
  Exec.ensure (appStateHash = contents.appState)
    (.other "app_state_hash == signed_block.0.message.as_inner().app_state")
  let logsHash ← save (tools.codec.logs block.logs)
  Exec.ensure (logsHash = contents.logs)
    (.other "logs_hash == signed_block.0.message.as_inner().logs")
  storeBlock block.signedBlock
  updateCurrent block

/-- Validate a block on top of the current one, by executing it. -/
def executeBlock (kolme : BlockState app) (signedBlock : SignedBlock app.Message)
    (validation : DataLoadValidation) (world : app.World) :
    Except Failure (ExecutedBlock app) := do
  Except.ensure (kolme.node.nextHeight = signedBlock.height)
    (.other "Tried to add block with another height than the next expected height")
  Except.ensure (kolme.blockhash = signedBlock.parent)
    (.other "Tried to add block, but actual parent has another block hash")
  Except.ensure (kolme.processor = signedBlock.message.value.processor)
    (.other "Received block signed by another processor than the real processor")
  signedBlock.tx.checkMaxHeight signedBlock.height
  (signedBlock.validateSignature tools.env).mapError .execution
  let block := signedBlock.message.value
  let results ← (kolme.node.executeTransaction tools.env {
    tx := block.tx
    timestamp := block.timestamp
    handling := .priorData block.loads validation
    codeVersion := tools.codeVersion
    world }).mapError .execution
  Except.ensure (results.height = signedBlock.height) (.other "height == signed_block.height()")
  Except.ensure (results.loads = block.loads) (.other "loads == block.loads")
  return {
    signedBlock
    frameworkState := results.frameworkState
    appState := results.appState
    logs := results.logs }

/-- Validate and append the given block. -/
def addBlockWith (signedBlock : SignedBlock app.Message) (validation : DataLoadValidation)
    (world : app.World) : Exec Failure (KolmeInner app) Unit := do
  let self ← Exec.get
  let block ← Exec.lift (executeBlock tools self.currentBlock signedBlock validation world)
  addExecutedBlock tools block

/-- Append a block without executing it. The state values must already be in the store. -/
def addBlockWithState (signedBlock : SignedBlock app.Message) :
    Exec Failure (KolmeInner app) Unit := do
  -- Don't accept blocks we already have
  let present ← hasBlock signedBlock.height
  Exec.ensure (present = false)
    (.other "Tried to add block, but it's already present in the store.")
  let self ← Exec.get
  let block := signedBlock.message.value
  Exec.ensure (self.currentBlock.processor = block.processor)
    (.other "Received block signed by another processor than the real processor")
  Exec.lift ((signedBlock.validateSignature tools.env).mapError .execution)
  Exec.ensure (self.hasMerkleHash block.frameworkState = true)
    (.other "Framework state not written to Merkle store")
  Exec.ensure (self.hasMerkleHash block.appState = true)
    (.other "App state not written to Merkle store")
  Exec.ensure (self.hasMerkleHash block.logs = true) (.other "Logs not written to Merkle store")
  storeBlock signedBlock

/-! ## What happens to the layers -/

section Layers

open Exec

variable {P : MerkleLayers → Prop} {refs : Bytes → List Sha256Hash} {self : KolmeInner app}

omit [Sha256] in
theorem keeps_hasBlock (height : BlockHeight) :
    Keeps (fun self : KolmeInner app => P self.layers) (hasBlock height) :=
  keeps_get.bind fun _ => keeps_lift _

omit [Sha256] in
theorem keeps_archiveBlock (height : BlockHeight) :
    Keeps (fun self : KolmeInner app => P self.layers) (archiveBlock height) := fun _ h => h

theorem keeps_storeBlock (block : SignedBlock app.Message) :
    Keeps (fun self => P self.layers) (storeBlock block) := fun _ h => h

omit [Sha256] in
theorem keeps_archiveFrom (fuel : ℕ) (next : BlockHeight) :
    Keeps (fun self : KolmeInner app => P self.layers) (archiveFrom fuel next) := by
  induction fuel generalizing next with
  | zero => exact keeps_throw _
  | succ fuel ih =>
    refine (keeps_hasBlock next).bind fun found => ?_
    cases found with
    | false => exact keeps_pure next
    | true => exact (keeps_archiveBlock next).bind fun _ => ih (next + 1)

omit [Sha256] in
theorem keeps_getNextToArchive :
    Keeps (fun self : KolmeInner app => P self.layers) getNextToArchive :=
  keeps_get.bind fun _ => (keeps_lift _).bind fun _ => (keeps_lift _).bind fun _ =>
    keeps_archiveFrom _ _

theorem keeps_resync : Keeps (fun self => P self.layers) (resync tools) := by
  refine keeps_get.bind fun self => (keeps_lift _).bind fun latest => ?_
  cases latest with
  | none => exact keeps_pure ()
  | some height =>
    exact keeps_ite (fun _ => (keeps_lift _).bind fun _ => (keeps_lift _).bind fun _ =>
      (keeps_lift _).bind fun _ => keeps_modify fun _ h => h) fun _ => keeps_pure ()

theorem keeps_updateCurrent (block : ExecutedBlock app) :
    Keeps (fun self => P self.layers) (updateCurrent block) := by
  refine keeps_get.bind fun self => keeps_ite (fun _ => keeps_pure ()) fun _ => ?_
  have archiving : Keeps (fun self : KolmeInner app => P self.layers) getNextToArchive :=
    keeps_getNextToArchive
  refine Keeps.bind ?_ fun _ => archiving.bind fun next => ?_
  · exact keeps_modify fun _ h => h
  · exact keeps_ite (fun _ _ h => h) fun _ => keeps_pure ()

theorem keeps_addBlockWithState (block : SignedBlock app.Message) :
    Keeps (fun self => P self.layers) (addBlockWithState tools block) :=
  (keeps_hasBlock _).bind fun _ => (keeps_lift _).bind fun _ => keeps_get.bind fun _ =>
    (keeps_lift _).bind fun _ => (keeps_lift _).bind fun _ => (keeps_lift _).bind fun _ =>
    (keeps_lift _).bind fun _ => (keeps_lift _).bind fun _ => keeps_storeBlock block

/-- The serialized states of a chain refer to their children. -/
structure StateCodecAuthentic (codec : StateCodec app)
    (refs : Bytes → List Sha256Hash) : Prop where
  frameworkState : ∀ state, (codec.frameworkState state).Authentic refs
  appState : ∀ state, (codec.appState state).Authentic refs
  logs : ∀ logs, (codec.logs logs).Authentic refs

end Layers

end KolmeInner

end Kolme
