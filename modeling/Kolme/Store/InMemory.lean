import Kolme.Lib.SortedMap
import Kolme.Store.Interface

/-!
# The in-memory store
-/

namespace Kolme.InMemory

/-- The maps of the store. The contents of the blocks are saved under their hashes. -/
structure Inner (β : Type) where
  merkle : SortedMap Sha256Hash (StorableBlock β)
  blockhashes : SortedMap BlockHeight BlockHash
  blocks : SortedMap BlockHeight Sha256Hash
  txhashes : SortedMap TxHash BlockHeight
  latestArchivedBlock : Option BlockHeight

variable {β : Type}

def Inner.default : Inner β := ⟨.empty, .empty, .empty, .empty, none⟩

/-- Save a block under the hash of its contents, if there is nothing under it. -/
def saveContents (merkle : SortedMap Sha256Hash (StorableBlock β)) (hash : Sha256Hash)
    (block : StorableBlock β) : SortedMap Sha256Hash (StorableBlock β) :=
  if merkle.contains hash then merkle else merkle.insert hash block

/-- Load the contents under a hash. -/
def loadContents (merkle : SortedMap Sha256Hash (StorableBlock β)) (hash : Sha256Hash) :
    Except KolmeStoreError (Option (StorableBlock β)) :=
  match merkle.get? hash with
  | none => .error (.custom (.merkle (.hashesNotFound {hash})))
  | some block => .ok (some block)

variable [MerkleHashed (StorableBlock β)]

def addBlock (block : StorableBlock β) : Exec KolmeStoreError (Inner β) Unit := do
  let guard ← Exec.get
  match guard.blockhashes.get? block.height with
  | some existingHash =>
    if existingHash ≠ block.blockhash then
      Exec.throw (.conflictingBlockInDb block.height block.blockhash existingHash)
    else
      Exec.throw (.matchingBlockAlreadyInserted block.height)
  | none =>
    if guard.txhashes.contains block.txhash then
      Exec.throw (.txAlreadyInDb block.txhash)
    else
      let hash := MerkleHashed.contentHash block
      Exec.modify fun guard => { guard with
        txhashes := guard.txhashes.insert block.txhash block.height
        merkle := saveContents guard.merkle hash block
        blocks := guard.blocks.insert block.height hash
        blockhashes := guard.blockhashes.insert block.height block.blockhash }

instance : KolmeBackingStore (Inner β) β where
  loadLatestBlock guard := .ok (guard.blocks.last?.map Prod.fst)
  loadBlock guard height :=
    match guard.blocks.get? height with
    | none => .ok none
    | some hash => loadContents guard.merkle hash
  hasBlock guard height := .ok (guard.blocks.contains height)
  getHeightForTx guard txhash := .ok (guard.txhashes.get? txhash)
  addBlock := addBlock
  archiveBlock height := Exec.modify fun guard => { guard with latestArchivedBlock := some height }
  getLatestArchivedBlockHeight guard := .ok guard.latestArchivedBlock

end Kolme.InMemory
