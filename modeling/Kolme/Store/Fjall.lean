import Kolme.Store.InMemory

/-!
# The Fjall store

One key-value partition, in which the prefix of a key tells blocks, transactions, layers and the
latest archived height apart. A new block is compared with the block at its height only; what the
index of transactions holds is overwritten.
-/

namespace Kolme.Fjall

open InMemory (saveContents loadContents)

/-- The partition, by the kinds of its keys. -/
structure Partition (β : Type) where
  merkle : SortedMap Sha256Hash (StorableBlock β)
  /-- Keys that start with `block:` -/
  blocks : SortedMap BlockHeight Sha256Hash
  /-- Keys that start with `tx:` -/
  txs : SortedMap TxHash BlockHeight
  latestArchivedHeight : Option BlockHeight

variable {β : Type}

def Partition.new : Partition β := ⟨.empty, .empty, .empty, none⟩

variable [MerkleHashed (StorableBlock β)]

def addBlock (block : StorableBlock β) : Exec KolmeStoreError (Partition β) Unit := do
  let hash := MerkleHashed.contentHash block
  let handle ← Exec.get
  match handle.blocks.get? block.height with
  | some existingHash =>
    if existingHash ≠ hash then
      Exec.throw (.conflictingBlockInDb block.height hash existingHash)
    else
      Exec.throw (.matchingBlockAlreadyInserted block.height)
  | none =>
    Exec.modify fun handle => { handle with
      merkle := saveContents handle.merkle hash block
      blocks := handle.blocks.insert block.height hash
      txs := handle.txs.insert block.txhash block.height }

instance : KolmeBackingStore (Partition β) β where
  loadLatestBlock handle := .ok (handle.blocks.last?.map Prod.fst)
  loadBlock handle height :=
    match handle.blocks.get? height with
    | none => .ok none
    | some hash => loadContents handle.merkle hash
  hasBlock handle height := .ok (handle.blocks.contains height)
  getHeightForTx handle txhash := .ok (handle.txs.get? txhash)
  addBlock := addBlock
  archiveBlock height := Exec.modify fun handle =>
    { handle with latestArchivedHeight := some height }
  getLatestArchivedBlockHeight handle := .ok handle.latestArchivedHeight

end Kolme.Fjall
