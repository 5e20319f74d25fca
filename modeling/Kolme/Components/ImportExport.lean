import Kolme.Components.KolmeInner
import Kolme.Merkle.Formats

/-!
# Exporting blocks to and importing blocks from a file

An exported file is a sequence of items: layers, and blocks after the layers of their states. The
exporter works through the layers below a block with a stack, and remembers the layers that it has
written to the file. The importer adds items as it reads them, and remembers the layers that it has
read.
-/

namespace Kolme

open Merkle (MerkleLayerContents Sha256 utf8 fromUtf8)

variable {app : App}

/-- A bound of a range of heights. -/
inductive HeightBound
  | included (height : BlockHeight)
  | excluded (height : BlockHeight)
  | unbounded
deriving DecidableEq

structure HeightRange where
  startBound : HeightBound
  endBound : HeightBound

namespace HeightRange

def contains (range : HeightRange) (height : BlockHeight) : Prop :=
  (match range.startBound with
    | .included start => start ≤ height
    | .excluded start => start < height
    | .unbounded => True) ∧
  match range.endBound with
    | .included last => height ≤ last
    | .excluded last => height < last
    | .unbounded => True

instance (range : HeightRange) (height : BlockHeight) : Decidable (range.contains height) := by
  unfold contains
  cases range.startBound <;> cases range.endBound <;> exact inferInstance

/-- The first height of a range. -/
def first (range : HeightRange) : BlockHeight :=
  match range.startBound with
  | .included start => start
  | .excluded start => start + 1
  | .unbounded => 0

/-- A bound on the rounds over a range. No block is stored above the latest, where a range without
an end fails. -/
def rounds (range : HeightRange) (latest : Option BlockHeight) : ℕ :=
  (match range.endBound with
    | .included last => last + 1
    | .excluded last => last
    | .unbounded => latest.elim 0 (· + 1)) - range.first + 2

end HeightRange

/-! ## Export -/

/-- The file, and the layers that are written to it. -/
structure Export where
  dest : Bytes
  writtenLayers : Finset Sha256Hash

inductive ExportWork
  | process (hash : Sha256Hash)
  | write (hash : Sha256Hash) (layer : MerkleLayerContents)

namespace Export

def writeAll (bytes : Bytes) : Exec Failure Export Unit :=
  Exec.modify fun s => { s with dest := s.dest ++ bytes }

def writeU32 (n : ℕ) (error : String) : Exec Failure Export Unit := do
  Exec.ensure (n < 2 ^ 32) (.other error)
  writeAll (Bytes.toBE 4 n)

def writeChild (child : Sha256Hash) : Exec Failure Export Unit := do
  let s ← Exec.get
  Exec.ensure (child ∈ s.writtenLayers)
    (.other "Logic error, writing layer but its child is not yet written")
  writeAll (Bytes.toBE 32 child.val)

def writeLayer (hash : Sha256Hash) (layer : MerkleLayerContents) : Exec Failure Export Unit := do
  writeAll [0]
  writeU32 layer.payload.length "Payload is too large"
  writeAll layer.payload
  writeU32 layer.children.length "Too many children"
  Exec.forEach writeChild layer.children
  Exec.modify fun s => { s with writtenLayers := insert hash s.writtenLayers }

/-- Work through the stack, top first. -/
def writeLayers (layers : MerkleLayers) : ℕ → List ExportWork → Exec Failure Export Unit
  | 0, _ => Exec.throw (.other "out of fuel")
  | _ + 1, [] => pure ()
  | fuel + 1, .process hash :: work => do
    let s ← Exec.get
    if hash ∈ s.writtenLayers then writeLayers layers fuel work
    else do
      let layer ← Exec.fromOption (.other "Missing layer") (layers.get? hash)
      let children := layer.children.filter (· ∉ s.writtenLayers)
      writeLayers layers fuel ((children.map .process).reverse ++ .write hash layer :: work)
  | fuel + 1, .write hash layer :: work => do
    let s ← Exec.get
    if hash ∈ s.writtenLayers then writeLayers layers fuel work
    else do
      writeLayer hash layer
      writeLayers layers fuel work

variable [Rendered (SignedBlock app.Message)]

def writeBlock (block : SignedBlock app.Message) : Exec Failure Export Unit := do
  let serialized := utf8 (Rendered.toText block)
  writeAll [1]
  writeU32 serialized.length "out of range integral type conversion attempted"
  writeAll serialized

end Export

/-- The turns of the loop over the layers below three roots, if no layer is below itself. -/
def MerkleLayers.exportRounds (layers : MerkleLayers) : ℕ :=
  (layers.toList.map fun entry => entry.2.children.length + 1).sum + 4

namespace KolmeInner

section

variable [MerkleHashed (StorableBlock (SignedBlock app.Message))]
  [Rendered (SignedBlock app.Message)] (self : KolmeInner app)

def exportBlock (height : BlockHeight) : Exec Failure Export Unit := do
  let block ← Exec.lift ((KolmeStore.loadBlock self.store height).mapError .store)
  let block ← Exec.fromOption (.other "Block not found") block
  let contents := block.block.message.value
  Export.writeLayers self.layers self.layers.exportRounds
    [.process contents.logs, .process contents.appState, .process contents.frameworkState]
  Export.writeBlock block.block

def exportFrom (range : HeightRange) : ℕ → BlockHeight → Exec Failure Export Unit
  | 0, _ => Exec.throw (.other "out of fuel")
  | fuel + 1, curr =>
    if range.contains curr then do
      exportBlock self curr
      exportFrom range fuel (curr + 1)
    else pure ()

/-- The file with the blocks of a range. -/
def exportBlocksTo (range : HeightRange) : Except Failure Bytes := do
  let latest := (KolmeBackingStore.loadLatestBlock self.store).toOption.join
  let s ← (exportFrom self range (range.rounds latest) range.first).finish ⟨[], ∅⟩
  return s.dest

end

end KolmeInner

/-! ## Import -/

/-- What is left of the file, the node, and the layers that are read. -/
structure Import (app : App) where
  src : Bytes
  kolme : KolmeInner app
  hashes : Finset Sha256Hash

namespace Import

def readExact (len : ℕ) : Exec Failure (Import app) Bytes := do
  let s ← Exec.get
  Exec.ensure (len ≤ s.src.length) (.other "early eof")
  Exec.modify fun s => { s with src := s.src.drop len }
  return s.src.take len

def readU32 : Exec Failure (Import app) ℕ := do
  let buff ← readExact 4
  return Bytes.ofBE buff

def readChild : Exec Failure (Import app) Sha256Hash := do
  let buff ← readExact 32
  let child : Sha256Hash := Fin.ofNat _ (Bytes.ofBE buff)
  let s ← Exec.get
  Exec.ensure (child ∈ s.hashes) (.other "Child hash was not previously written.")
  Exec.ensure (s.kolme.layers.contains child = true)
    (.other "Merkle hash of a child not found in Merkle store")
  return child

def readChildren : ℕ → Exec Failure (Import app) (List Sha256Hash)
  | 0 => pure []
  | len + 1 => do
    let child ← readChild
    let children ← readChildren len
    return child :: children

/-- A change of the node. -/
def onKolme (x : Exec Failure (KolmeInner app) Unit) : Exec Failure (Import app) Unit :=
  Exec.zoom kolme (fun s kolme => { s with kolme }) x

variable [Sha256]

def importLayer : Exec Failure (Import app) Unit := do
  let payloadLen ← readU32
  let payload ← readExact payloadLen
  let childrenLen ← readU32
  let children ← readChildren childrenLen
  let layer : MerkleLayerContents := ⟨payload, children⟩
  onKolme (KolmeInner.addMerkleLayer layer)
  Exec.modify fun s => { s with hashes := insert layer.hash s.hashes }

variable [MerkleHashed (StorableBlock (SignedBlock app.Message))]
  [Rendered (SignedBlock app.Message)] (tools : KolmeTools app)

/-- Add a block that was imported, unless it is there already. -/
def addBlock (block : SignedBlock app.Message) : Exec Failure (KolmeInner app) Unit := do
  let present ← KolmeInner.hasBlock block.height
  if present then return ()
  else KolmeInner.addBlockWithState tools block

def importBlock : Exec Failure (Import app) Unit := do
  let len ← readU32
  let buff ← readExact len
  let text ← Exec.lift ((fromUtf8 buff).mapError .merkle)
  let block ← Exec.fromOption (.other "invalid JSON") (Rendered.fromText text)
  onKolme (addBlock tools block)

/-- Import items to the end of the file. -/
def importItems : ℕ → Exec Failure (Import app) Unit
  | 0 => Exec.throw (.other "out of fuel")
  | fuel + 1 => do
    let s ← Exec.get
    match s.src with
    | [] => onKolme (KolmeInner.resync tools)
    | b :: src => do
      Exec.modify fun s => { s with src }
      if b = 0 then do
        importLayer
        importItems fuel
      else if b = 1 then do
        importBlock tools
        importItems fuel
      else Exec.throw (.other "Import blocks failed, found unexpected byte")

end Import

/-- Import the items of a file. Each takes at least one byte. -/
def KolmeInner.importBlocksFrom [Sha256] [MerkleHashed (StorableBlock (SignedBlock app.Message))]
    [Rendered (SignedBlock app.Message)] (tools : KolmeTools app) (src : Bytes) :
    Exec Failure (KolmeInner app) Unit := fun self =>
  let (result, s) := Import.importItems tools (src.length + 1) ⟨src, self, ∅⟩
  (result, s.kolme)

end Kolme
