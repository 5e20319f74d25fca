import Kolme.Components.SyncManager
import Kolme.Lib.Machine
import Kolme.Merkle.Save

/-!
# What writes layers

Tasks of a node write layers when they save a value, copy a layer from the store of another node, or
store the layers that peers send. They go on turn by turn, in any order, and a turn writes one layer
at most. A task may be given up after any turn, and all are when the node is stopped.
-/

namespace Kolme

open Merkle

variable {app : App}

/-- The layers of a store, and what kind of store it is. -/
structure StoredLayers where
  backend : Backend
  layers : MerkleLayers

/-- An item of work while a layer is copied from another store. -/
inductive IngestWork
  | process (hash : Sha256Hash)
  | write (layer : MerkleLayerContents)
  /-- The layer was not there when it was looked up. -/
  | add (layer : MerkleLayerContents)

/-- What is left to do of calls of `processAvailableHash`: a call, what follows in it when all
children were there, and its end. -/
inductive Frame
  | process (hash : Sha256Hash)
  | add (hash : Sha256Hash) (layer : MerkleLayerContents)
  | done (hash : Sha256Hash)

/-- A task that saves a value or copies a layer. -/
inductive Writer
  | saving (work : List Work) (saved : Finset Sha256Hash)
  | ingesting (other : MerkleLayers) (work : List IngestWork)

/-- A node with its download of the layers of a block, and the other tasks that write to its
store. -/
structure Writers (app : App) where
  download : Download app
  frames : List Frame
  writers : List Writer

/-- What can happen: a value is saved, a layer is copied from another store, a download starts, a
layer arrives from a peer, the needed layers are scanned, a task takes a turn or is given up, and
everything in memory is lost. -/
inductive WriterCall (app : App)
  | save (contents : MerkleContents)
  | ingest (other : MerkleLayers) (hash : Sha256Hash)
  | turn (task : ℕ)
  | giveUp (task : ℕ)
  | download (block : SignedBlock app.Message)
  | receive (hash : Sha256Hash) (layer : MerkleLayerContents)
  | scan (limit now : ℕ)
  | downloadTurn
  | giveUpDownload
  | stop

variable [Sha256]

instance : LayerStore StoredLayers where
  saveByHash self layer := do
    let layers ← (self.layers.saveByHash self.backend layer).mapError fun _ => .panic
    return { self with layers }
  loadByHash self hash := .ok (self.layers.get? hash)
  containsHash self hash := self.layers.contains hash

namespace KolmeInner

omit [Sha256] in
def storedLayers (self : KolmeInner app) : StoredLayers := ⟨self.store.inner.backend, self.layers⟩

/-- One turn of the loop that saves a value. -/
def saveTurn (self : KolmeInner app) (work : List Work) (saved : Finset Sha256Hash) :
    Except Failure (KolmeInner app × Writer) := do
  let loop ← (Saving.mk self.storedLayers work saved).step.mapError .merkle
  return ({ self with layers := loop.store.layers }, .saving loop.work loop.saved)

/-- One turn of the loop that copies a layer from another store. -/
def ingestTurn (self : KolmeInner app) (other : MerkleLayers) :
    List IngestWork → Except Failure (KolmeInner app × List IngestWork)
  | [] => .ok (self, [])
  | .process hash :: work =>
    if self.hasMerkleHash hash then .ok (self, work)
    else do
      let layer ← Except.fromOption (.other "Missing layer in source store") (other.get? hash)
      return (self, layer.children.reverse.map .process ++ .write layer :: work)
  | .write layer :: work =>
    if self.hasMerkleHash layer.hash then .ok (self, work) else .ok (self, .add layer :: work)
  | .add layer :: work => do return (← Exec.finish (addMerkleLayer layer) self, work)

def writerTurn (self : KolmeInner app) : Writer → Except Failure (KolmeInner app × Writer)
  | .saving work saved => self.saveTurn work saved
  | .ingesting other work => do
    let (self, work) ← self.ingestTurn other work
    return (self, .ingesting other work)

end KolmeInner

namespace Download

omit [Sha256] in
/-- The layer is no longer pending. -/
def completed (hash : Sha256Hash) (self : Download app) : Download app :=
  { self with
    pending := { self.pending with pendingLayers := self.pending.pendingLayers.erase hash } }

omit [Sha256] in
/-- The calls for the parents of a stored layer, and the end of the call for the layer. -/
def parentFrames (order : VisitOrder) (hash : Sha256Hash) (self : Download app) : List Frame :=
  match self.pending.reverseLayers.get? hash with
  | none => []
  | some parents => (order.visit parents).map .process ++ [.done hash]

/-- One turn of `processAvailableHash`, without the calls that it makes. -/
def releaseTurn (order : VisitOrder) (self : Download app) :
    List Frame → Except Failure (Download app × List Frame)
  | [] => .ok (self, [])
  | .process hash :: frames =>
    if self.kolme.hasMerkleHash hash then
      .ok (self.completed hash, self.parentFrames order hash ++ frames)
    else
      match self.pending.pendingLayers.get? hash with
      | none => .ok (self, frames)
      | some layer =>
        if layer.children.all self.kolme.hasMerkleHash then .ok (self, .add hash layer :: frames)
        else .ok (self, frames)
  | .add hash layer :: frames => do
    let self ← Exec.finish (onKolme (KolmeInner.addMerkleLayer layer)) self
    return (self.completed hash, self.parentFrames order hash ++ frames)
  | .done hash :: frames => .ok ({ self with pending := { self.pending with
      reverseLayers := self.pending.reverseLayers.erase hash } }, frames)

/-- A layer from a peer, up to the call of `processAvailableHash`. -/
def receiveLayer (hash : Sha256Hash) (layer : MerkleLayerContents) (self : Download app) :
    Download app × List Frame :=
  if self.pending.neededLayers.contains hash = false ∨
      self.pending.pendingLayers.contains hash = true then (self, [])
  else if self.kolme.hasMerkleHash hash then
    ({ self with
      pending := { self.pending with neededLayers := self.pending.neededLayers.erase hash } }, [])
  else
    let missing := layer.children.filter fun child => !self.kolme.hasMerkleHash child
    ({ self with pending := self.pending.receive hash layer missing },
      if missing = [] then [.process hash] else [])

end Download

namespace Writers

/-- The task that downloads does one thing after another. -/
def ensureWaiting (self : Writers app) : Except Failure Unit :=
  Except.ensure (self.frames matches []) (.other "the download is busy")

def step (order : VisitOrder) (self : Writers app) : WriterCall app → Except Failure (Writers app)
  | .save contents =>
    return if self.download.kolme.hasMerkleHash contents.hash then self
      else { self with writers := self.writers ++ [.saving [⟨contents, true⟩] ∅] }
  | .ingest other hash =>
    return { self with writers := self.writers ++ [.ingesting other [.process hash]] }
  | .turn task => do
    let writer ← Except.fromOption (.other "no such task") self.writers[task]?
    let (kolme, writer) ← self.download.kolme.writerTurn writer
    return { self with
      download := { self.download with kolme }
      writers := self.writers.set task writer }
  | .giveUp task => return { self with writers := self.writers.eraseIdx task }
  | .download block => do
    self.ensureWaiting
    let pending := SyncManager.startPending self.download.kolme block
    return { self with download := { self.download with pending } }
  | .receive hash layer => do
    self.ensureWaiting
    if layer.hash = hash then
      let (download, frames) := self.download.receiveLayer hash layer
      return { self with download, frames }
    else return self
  | .scan limit now => do
    self.ensureWaiting
    let download := self.download
    let (drop, request) := scanLayers download.kolme.hasMerkleHash limit now 0
      download.pending.neededLayers.toList
    return { self with
      download := { download with pending := download.pending.scanned now drop request } }
  | .downloadTurn => do
    let (download, frames) ← self.download.releaseTurn order self.frames
    return { self with download, frames }
  | .giveUpDownload => return { self with frames := [] }
  | .stop => return {
      download :=
        { self.download with pending := ⟨self.download.pending.block, .empty, .empty, .empty⟩ }
      frames := []
      writers := [] }

def machine (order : VisitOrder) : Machine (Writers app) (WriterCall app) Failure where
  step := step order

end Writers

end Kolme
