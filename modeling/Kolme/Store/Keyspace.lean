import Kolme.Lib.ByteOrder
import Kolme.Merkle.Layers
import Kolme.Merkle.Save
import Kolme.Store.Interface

/-!
# The keys of the Fjall store

Blocks, the index of transactions and layers share one partition of keys and values. The kinds are
told apart by the first bytes of a key or by its length, and the latest block is the last key that
starts with `block:`.
-/

namespace Kolme.Fjall

open Merkle (MerkleContents MerkleLayerContents MerkleSerialError Sha256 LayerStore)

/-- The values under the keys, in the order of the keys. -/
abbrev Handle := SortedMap ByteKey Bytes

inductive Error
  | store (e : KolmeStoreError)
  | merkle (e : MerkleSerialError)
  /-- A slice that has another length than the array -/
  | tryFromSlice
  | other (text : String)

/-- The bytes of a hash. -/
def asArray (hash : Sha256Hash) : Bytes := Bytes.toBE 32 hash.val

def fromHash (hash : Bytes) : Except Error Sha256Hash :=
  if h : hash.length = 32 then .ok ⟨Bytes.ofBE hash, (Bytes.ofBE_lt hash).trans_eq (by rw [h]; norm_num)⟩
  else .error .tryFromSlice

/-- `block:` -/
def blockPrefix : Bytes := [98, 108, 111, 99, 107, 58]

/-- `tx:` -/
def txPrefix : Bytes := [116, 120, 58]

/-- `LATEST` -/
def latestArchivedHeightKey : ByteKey := ⟨[76, 65, 84, 69, 83, 84]⟩

def blockKey (height : BlockHeight) : ByteKey := ⟨blockPrefix ++ Bytes.toBE 8 height⟩

def txKey (tx : TxHash) : ByteKey := ⟨txPrefix ++ asArray tx⟩

structure Keys where
  payload : ByteKey
  children : ByteKey

/-- The hash and then `p` or `c`. -/
def Keys.fromHash (hash : Sha256Hash) : Keys where
  payload := ⟨asArray hash ++ [112]⟩
  children := ⟨asArray hash ++ [99]⟩

def renderChildren (children : List Sha256Hash) : Bytes := children.flatMap asArray

/-- The given number of hashes from a slice. -/
def hashesFrom : ℕ → Bytes → List Sha256Hash
  | 0, _ => []
  | count + 1, children => Fin.ofNat _ (Bytes.ofBE (children.take 32)) ::
    hashesFrom count (children.drop 32)

def parseChildren (children : Bytes) : Except MerkleSerialError (List Sha256Hash) := do
  Except.ensure (children.length % 32 = 0)
    (MerkleSerialError.custom "Children in fjall store not a multiple of 32 bytes")
  return hashesFrom (children.length / 32) children

/-- The entries whose keys start with some bytes. -/
def Handle.startingWith (handle : Handle) (start : Bytes) : Handle :=
  handle.filter fun key => start.isPrefixOf key.bytes

variable [Sha256]

instance : LayerStore Handle where
  saveByHash handle layer :=
    let keys := Keys.fromHash layer.hash
    .ok ((handle.insert keys.payload layer.payload).insert keys.children
      (renderChildren layer.children))
  loadByHash handle hash :=
    let keys := Keys.fromHash hash
    match handle.get? keys.payload, handle.get? keys.children with
    | some payload, some children => do return some ⟨payload, ← parseChildren children⟩
    | _, _ => .ok none
  containsHash handle hash :=
    let keys := Keys.fromHash hash
    handle.contains keys.payload && handle.contains keys.children

/-- How the blocks of a chain are serialized. -/
structure BlockCodec (β : Type) where
  serialize : StorableBlock β → Except MerkleSerialError MerkleContents
  deserialize : MerkleContents → Except MerkleSerialError (StorableBlock β)

variable {β : Type} (codec : BlockCodec β)

namespace Handle

def loadLatestBlock (handle : Handle) : Except Error (Option BlockHeight) :=
  match (handle.startingWith blockPrefix).last? with
  | none => .ok none
  | some (key, _) => do
    Except.ensure (blockPrefix.isPrefixOf key.bytes = true)
      (.other "Fjall key missing block: prefix")
    let height := key.bytes.drop blockPrefix.length
    Except.ensure (height.length = 8) .tryFromSlice
    return some (Bytes.ofBE height)

/-- Load a block whose contents have at most the given number of levels. -/
def loadBlock (levels : ℕ) (handle : Handle) (height : BlockHeight) :
    Except Error (Option (StorableBlock β)) :=
  match handle.get? (blockKey height) with
  | none => .ok none
  | some hashBytes => do
    let hash ← fromHash hashBytes
    let contents ← (Merkle.loadContents handle levels hash).mapError .merkle
    let block ← (codec.deserialize contents).mapError .merkle
    return some block

def hasBlock (handle : Handle) (height : BlockHeight) : Bool :=
  handle.contains (blockKey height)

def getHeightForTx (handle : Handle) (txhash : TxHash) : Except Error (Option BlockHeight) :=
  match handle.get? (txKey txhash) with
  | none => .ok none
  | some height => do
    Except.ensure (height.length = 8) .tryFromSlice
    return some (Bytes.ofBE height)

def getLatestArchivedBlockHeight (handle : Handle) : Except Error (Option BlockHeight) :=
  match handle.get? latestArchivedHeightKey with
  | none => .ok none
  | some contents => do
    Except.ensure (8 ≤ contents.length) (.merkle .panic)
    return some (Bytes.ofBE (contents.take 8))

/-- Save the serialized contents of a value. -/
def save (contents : MerkleContents) : Exec Error Handle Unit := do
  let handle ← Exec.get
  let saved ← Exec.lift ((Merkle.saveMerkleContents handle contents).mapError .merkle)
  Exec.modify fun _ => saved

/-- Add the serialized contents of a block, given the hash that is stored at its height. -/
def addContents (block : StorableBlock β) (contents : MerkleContents) :
    Option Bytes → Exec Error Handle Unit
  | some existingHash => do
    if existingHash ≠ asArray contents.hash then
      let existing ← Exec.lift (fromHash existingHash)
      Exec.throw (.store (.conflictingBlockInDb block.height contents.hash existing))
    else
      Exec.throw (.store (.matchingBlockAlreadyInserted block.height))
  | none => do
    save contents
    Exec.modify fun handle =>
      (handle.insert (blockKey block.height) (asArray contents.hash)).insert (txKey block.txhash)
        (Bytes.toBE 8 block.height)

def addBlock (block : StorableBlock β) : Exec Error Handle Unit := do
  let contents ← Exec.lift ((codec.serialize block).mapError .merkle)
  let handle ← Exec.get
  addContents block contents (handle.get? (blockKey block.height))

def addMerkleLayer (layer : MerkleLayerContents) : Exec Error Handle Unit := do
  let handle ← Exec.get
  let saved ← Exec.lift ((LayerStore.saveByHash handle layer).mapError .merkle)
  Exec.modify fun _ => saved

def archiveBlock (height : BlockHeight) : Exec Error Handle Unit :=
  Exec.modify fun handle => handle.insert latestArchivedHeightKey (Bytes.toBE 8 height)

end Handle

end Kolme.Fjall
