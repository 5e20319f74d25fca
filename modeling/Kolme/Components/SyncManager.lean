import Kolme.Components.KolmeInner

/-!
# The sync manager

A node that lacks blocks asks its peers for them. Blocks are fetched in ascending order. A block
that arrives is executed or, depending on the mode, its states are fetched layer by layer: a layer
whose children are not all stored waits for them, and each layer that is stored releases those that
wait for it.
-/

namespace Kolme

open Merkle (MerkleLayerContents Sha256)

variable {app : App}

/-- How block data is synchronized. -/
inductive SyncMode
  | stateTransfer
  | archive
  | blockTransfer
  | validateFrom (stateSyncHeight : BlockHeight)
deriving DecidableEq

/-- Status of a request for data: the last time that the request was made, in nanoseconds. -/
structure RequestStatus where
  lastSent : Option ℕ
deriving DecidableEq

/-- What peers are asked for. -/
inductive SyncRequest
  | block (height : BlockHeight)
  | merkle (hash : Sha256Hash)
deriving DecidableEq

namespace RequestStatus

def new : RequestStatus := ⟨none⟩

/-- Whether we should try this request again. -/
def due (self : RequestStatus) (now : ℕ) : Bool :=
  match self.lastSent with
  | none => true
  | some lastSent => 2 ≤ (now - lastSent) / 10 ^ 9

/-- The status after a check, which makes the request if it is due. -/
def check (self : RequestStatus) (now : ℕ) : RequestStatus :=
  if self.due now then ⟨some now⟩ else self

end RequestStatus

/-- A block whose layers are downloaded. -/
structure PendingBlock (app : App) where
  block : SignedBlock app.Message
  /-- Layers we're interested in but haven't received any info on yet. -/
  neededLayers : SortedMap Sha256Hash RequestStatus
  /-- Merkle layers that don't yet have the full content for the children. -/
  pendingLayers : SortedMap Sha256Hash MerkleLayerContents
  /-- A reverse map for pending layers: parents waiting on children. -/
  reverseLayers : SortedMap Sha256Hash (Finset Sha256Hash)

inductive WaitingBlock (app : App)
  /-- We haven't received the basic block info yet. -/
  | needed (status : RequestStatus)
  /-- We have the raw block, but haven't processed it yet. -/
  | received (block : SignedBlock app.Message)
  /-- We've received the block info, but now need to download the state layers. -/
  | pending (pending : PendingBlock app)

/-- The order in which the elements of a hash set are visited. -/
structure VisitOrder where
  visit : Finset Sha256Hash → List Sha256Hash
  mem_visit : ∀ {hashes hash}, hash ∈ visit hashes ↔ hash ∈ hashes

structure Gossip (app : App) where
  tools : KolmeTools app
  syncMode : SyncMode
  dataLoadValidation : DataLoadValidation
  concurrentRequestLimit : ℕ
  order : VisitOrder

/-- The node and the blocks we're currently waiting on. -/
structure SyncManager (app : App) where
  kolme : KolmeInner app
  neededBlocks : SortedMap BlockHeight (WaitingBlock app)

/-- The node and a block whose layers are downloaded. -/
structure Download (app : App) where
  kolme : KolmeInner app
  pending : PendingBlock app

namespace PendingBlock

/-- A layer waits for a child. -/
def await (self : PendingBlock app) (hash child : Sha256Hash) : PendingBlock app :=
  { self with
    reverseLayers := self.reverseLayers.insert child
      (insert hash ((self.reverseLayers.get? child).getD ∅))
    neededLayers := if self.neededLayers.contains child then self.neededLayers
      else self.neededLayers.insert child .new }

/-- Put a received layer with the pending ones. -/
def receive (self : PendingBlock app) (hash : Sha256Hash) (layer : MerkleLayerContents)
    (missing : List Sha256Hash) : PendingBlock app :=
  let self := missing.foldl (fun self child => self.await hash child) self
  { self with
    pendingLayers := self.pendingLayers.insert hash layer
    neededLayers := self.neededLayers.erase hash }

/-- The layers that have to be there when the block is added. -/
def roots (self : PendingBlock app) : List Sha256Hash :=
  let inner := self.block.message.value
  [inner.frameworkState, inner.appState, inner.logs]

end PendingBlock

/-- The needed layers after a pass over them. -/
def PendingBlock.scanned (self : PendingBlock app) (now : ℕ) (drop request : List Sha256Hash) :
    PendingBlock app :=
  { self with
    neededLayers := drop.foldl SortedMap.erase
      (request.foldl (fun needed hash => needed.insert hash ⟨some now⟩) self.neededLayers) }

/-- One pass over the needed layers, up to the limit of active requests: the layers that are stored
in the meanwhile, and those to request. -/
def scanLayers (stored : Sha256Hash → Bool) (limit now : ℕ) :
    (active : ℕ) → List (Sha256Hash × RequestStatus) → List Sha256Hash × List Sha256Hash
  | _, [] => ([], [])
  | active, (hash, status) :: rest =>
    if limit ≤ active then ([], [])
    else if stored hash then
      let (drop, request) := scanLayers stored limit now active rest
      (hash :: drop, request)
    else
      let (drop, request) := scanLayers stored limit now (active + 1) rest
      (drop, if status.due now then hash :: request else request)

variable [Sha256] [MerkleHashed (StorableBlock (SignedBlock app.Message))]
  [Rendered (SignedBlock app.Message)] (gossip : Gossip app)

namespace Download

/-- An operation on the node. -/
def onKolme {α : Type} (x : Exec Failure (KolmeInner app) α) : Exec Failure (Download app) α :=
  Exec.zoom kolme (fun self kolme => { self with kolme }) x

def complete (hash : Sha256Hash) : Exec Failure (Download app) Unit :=
  Exec.modify fun self => { self with
    pending := { self.pending with pendingLayers := self.pending.pendingLayers.erase hash } }

/-- Go on with the parents of a stored layer. -/
def release (order : VisitOrder) (process : Sha256Hash → Exec Failure (Download app) Unit)
    (hash : Sha256Hash) : Exec Failure (Download app) Unit := do
  match (← Exec.get).pending.reverseLayers.get? hash with
  | none => return ()
  | some parents =>
    Exec.forEach process (order.visit parents)
    Exec.modify fun self => { self with
      pending := { self.pending with reverseLayers := self.pending.reverseLayers.erase hash } }

/-- Store a layer if all its children are, and then those that wait for it. -/
def processAvailableHash (order : VisitOrder) :
    (fuel : ℕ) → Sha256Hash → Exec Failure (Download app) Unit
  | 0, _ => Exec.throw (.other "out of fuel")
  | fuel + 1, hash => do
    let self ← Exec.get
    if self.kolme.hasMerkleHash hash then do
      complete hash
      release order (processAvailableHash order fuel) hash
    else
      match self.pending.pendingLayers.get? hash with
      | none => return ()
      | some layer =>
        if layer.children.all self.kolme.hasMerkleHash then do
          onKolme (KolmeInner.addMerkleLayer layer)
          complete hash
          release order (processAvailableHash order fuel) hash
        else return ()

/-- Take a layer from a peer. -/
def addMerkleLayer (order : VisitOrder) (hash : Sha256Hash) (layer : MerkleLayerContents) :
    Exec Failure (Download app) Unit := do
  let self ← Exec.get
  if self.pending.neededLayers.contains hash = false ∨
      self.pending.pendingLayers.contains hash = true then return ()
  else if self.kolme.hasMerkleHash hash then
    Exec.modify fun self => { self with
      pending := { self.pending with neededLayers := self.pending.neededLayers.erase hash } }
  else do
    let missing := layer.children.filter fun child => !self.kolme.hasMerkleHash child
    Exec.modify fun self => { self with pending := self.pending.receive hash layer missing }
    if missing = [] then
      processAvailableHash order (self.pending.pendingLayers.toList.length + 2) hash
    else return ()

/-- The requests for a block whose layers are downloaded. When no layer is needed, the block is
added. -/
def getBlockDataRequests (gossip : Gossip app) (now : ℕ) :
    Exec Failure (Download app) (Option (List SyncRequest)) := do
  let self ← Exec.get
  let (drop, request) := scanLayers self.kolme.hasMerkleHash gossip.concurrentRequestLimit now 0
    self.pending.neededLayers.toList
  Exec.modify fun self => { self with pending := self.pending.scanned now drop request }
  if (← Exec.get).pending.neededLayers.toList = [] then do
    onKolme (KolmeInner.addBlockWithState gossip.tools self.pending.block)
    onKolme (KolmeInner.resync gossip.tools)
    return none
  else return some (request.map .merkle)

end Download

namespace SyncManager

/-- An operation on the node. -/
def onKolme {α : Type} (x : Exec Failure (KolmeInner app) α) :
    Exec Failure (SyncManager app) α :=
  Exec.zoom kolme (fun self kolme => { self with kolme }) x

def setWaiting (height : BlockHeight) (waiting : WaitingBlock app) :
    Exec Failure (SyncManager app) Unit :=
  Exec.modify fun self => { self with neededBlocks := self.neededBlocks.insert height waiting }

/-- Work on a block whose layers are downloaded. -/
def download {α : Type} (height : BlockHeight) (pending : PendingBlock app)
    (x : Exec Failure (Download app) α) : Exec Failure (SyncManager app) α :=
  Exec.zoom (fun self => ⟨self.kolme, pending⟩) (fun self download =>
    { kolme := download.kolme
      neededBlocks := self.neededBlocks.insert height (.pending download.pending) }) x

def addNeededBlock (height : BlockHeight) : Exec Failure (SyncManager app) Unit := do
  if (← onKolme (KolmeInner.hasBlock height)) = true ∨
      (← Exec.get).neededBlocks.contains height = true then return ()
  else setWaiting height (.needed .new)

def addPendingBlock (block : SignedBlock app.Message) : Exec Failure (SyncManager app) Unit := do
  if ← onKolme (KolmeInner.hasBlock block.height) then
    Exec.modify fun self => { self with neededBlocks := self.neededBlocks.erase block.height }
  else
    match (← Exec.get).neededBlocks.get? block.height with
    -- We needed this block, so let's do it.
    | some (.needed _) => setWaiting block.height (.received block)
    -- We already got it, nothing to do.
    | _ => return ()

/-- Take a layer from a peer, for the first block. -/
def addMerkleLayer (hash : Sha256Hash) (layer : MerkleLayerContents) :
    Exec Failure (SyncManager app) Unit := do
  match (← Exec.get).neededBlocks.first? with
  | some (height, .pending pending) =>
    download height pending (Download.addMerkleLayer gossip.order hash layer)
  | _ => return ()

/-- Ask for earlier blocks where the mode needs them. -/
def addMissingNeededBlocks : Exec Failure (SyncManager app) Unit := do
  let self ← Exec.get
  match gossip.syncMode with
  -- State mode allows us to just grab the blocks we need.
  | .stateTransfer => return ()
  | .archive =>
    match self.neededBlocks.first? with
    | none => return ()
    | some (nextNeeded, _) => do
      let nextToArchive ← onKolme KolmeInner.getNextToArchive
      if nextToArchive < nextNeeded then addNeededBlock nextToArchive else return ()
  | .blockTransfer =>
    match self.neededBlocks.first? with
    | none => return ()
    | some (nextNeeded, _) =>
      let nextChain := self.kolme.currentBlock.node.nextHeight
      if nextNeeded ≠ nextChain then addNeededBlock nextChain else return ()
  | .validateFrom stateSyncHeight =>
    if self.kolme.currentBlock.node.nextHeight ≤ stateSyncHeight then
      addNeededBlock stateSyncHeight
    else return ()

/-- Whether a block is executed, or its states are fetched. -/
def doBlock (self : SyncManager app) (height : BlockHeight) : Bool :=
  match gossip.syncMode with
  | .blockTransfer => true
  | .stateTransfer | .archive =>
    self.kolme.currentBlock.node.nextHeight = height ∧
      self.kolme.currentBlock.node.frameworkState.version = gossip.tools.codeVersion
  | .validateFrom stateSyncHeight => stateSyncHeight < height

/-- The start of a download. -/
def startPending (kolme : KolmeInner app) (block : SignedBlock app.Message) : PendingBlock app :=
  let pending : PendingBlock app := ⟨block, .empty, .empty, .empty⟩
  { pending with
    neededLayers := (pending.roots.filter fun hash => !kolme.hasMerkleHash hash).foldl
      (fun needed hash => needed.insert hash .new) .empty }

/-- The requests for a block, or nothing when it needs no more work. -/
def getDataRequestsFor (now : ℕ) (world : app.World) (height : BlockHeight)
    (waiting : WaitingBlock app) :
    Exec Failure (SyncManager app) (Option (List SyncRequest)) := do
  -- Check if it got added to our store in the meanwhile
  if ← onKolme (KolmeInner.hasBlock height) then return none
  else
    match waiting with
    | .needed status => do
      setWaiting height (.needed (status.check now))
      return some (if status.due now then [.block height] else [])
    | .received block => do
      let self ← Exec.get
      if self.doBlock gossip block.height then
        -- An error is reported, and the block counts as done.
        fun self => (.ok none, (onKolme (KolmeInner.addBlockWith gossip.tools block
          gossip.dataLoadValidation world) self).2)
      else download height (startPending self.kolme block) (Download.getBlockDataRequests gossip now)
    | .pending pending => download height pending (Download.getBlockDataRequests gossip now)

/-- Get any needed requests. A round takes a block away, unless it is the last. -/
def dataRequestRounds (now : ℕ) (world : app.World) :
    (fuel : ℕ) → Exec Failure (SyncManager app) (List SyncRequest)
  | 0 => Exec.throw (.other "out of fuel")
  | fuel + 1 => do
    addMissingNeededBlocks gossip
    match (← Exec.get).neededBlocks.first? with
    | none => return []
    | some (height, waiting) =>
      match ← getDataRequestsFor gossip now world height waiting with
      | some requests => return requests
      | none => do
        Exec.modify fun self => { self with neededBlocks := self.neededBlocks.erase height }
        dataRequestRounds now world fuel

def getDataRequests (now : ℕ) (world : app.World) :
    Exec Failure (SyncManager app) (List SyncRequest) := do
  let self ← Exec.get
  dataRequestRounds gossip now world (self.neededBlocks.toList.length + 1)

/-! ## Messages -/

/-- What a node has to handle: heights that become known, answers of any peers, polls, and what its
other tasks do to its store. -/
inductive Event (app : App)
  | needBlock (height : BlockHeight)
  | provideBlock (block : SignedBlock app.Message)
  | provideLayer (hash : Sha256Hash) (contents : MerkleLayerContents)
  | poll (now : ℕ) (world : app.World)
  | others (change : KolmeInner app → KolmeInner app)

/-- What is sent to the peers in an event, and the state afterwards. An error is only reported. -/
def handle (self : SyncManager app) : Event app → List SyncRequest × SyncManager app
  | .needBlock height => ([], (addNeededBlock height self).2)
  | .provideBlock block => ([], (addPendingBlock block self).2)
  | .provideLayer hash contents =>
    ([], if contents.hash = hash then (addMerkleLayer gossip hash contents self).2 else self)
  | .poll now world =>
    match getDataRequests gossip now world self with
    | (.ok requests, self) => (requests, self)
    | (.error _, self) => ([], self)
  | .others change => ([], { self with kolme := change self.kolme })

def service : Service (SyncManager app) (Event app) (List SyncRequest) where
  call := handle gossip

/-- A node that waits for no block. -/
def new (kolme : KolmeInner app) : SyncManager app := ⟨kolme, .empty⟩

end SyncManager

end Kolme
