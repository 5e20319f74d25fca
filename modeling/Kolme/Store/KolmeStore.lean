import Kolme.Lib.LruCache
import Kolme.Store.Fjall
import Kolme.Store.Postgres

/-!
# The store of a node

One of the three backing stores, with a cache of the blocks that were added last. Adding the block
that is there already counts as a success.
-/

namespace Kolme

variable {β : Type}

/-- The backing store in use. -/
inductive KolmeStoreInner (β : Type)
  | inMemory (store : InMemory.Inner β)
  | fjall (store : Fjall.Partition β)
  | postgres (store : Postgres.Database β)

/-- The kinds of backing stores. -/
inductive Backend
  | inMemory
  | fjall
  | postgres
deriving DecidableEq

def Backend.new : Backend → KolmeStoreInner β
  | inMemory => .inMemory .default
  | fjall => .fjall .new
  | postgres => .postgres .new

namespace KolmeStoreInner

open KolmeBackingStore

variable [MerkleHashed (StorableBlock β)] [Rendered β]

/-- An operation on the backing store in use. -/
def dispatch {α : Type} (onInMemory : Exec KolmeStoreError (InMemory.Inner β) α)
    (onFjall : Exec KolmeStoreError (Fjall.Partition β) α)
    (onPostgres : Exec KolmeStoreError (Postgres.Database β) α) :
    Exec KolmeStoreError (KolmeStoreInner β) α
  | inMemory store => (onInMemory store).map id inMemory
  | fjall store => (onFjall store).map id fjall
  | postgres store => (onPostgres store).map id postgres

instance : KolmeBackingStore (KolmeStoreInner β) β where
  loadLatestBlock
    | inMemory store => loadLatestBlock store
    | fjall store => loadLatestBlock store
    | postgres store => loadLatestBlock store
  loadBlock
    | inMemory store => loadBlock store
    | fjall store => loadBlock store
    | postgres store => loadBlock store
  hasBlock
    | inMemory store => hasBlock store
    | fjall store => hasBlock store
    | postgres store => hasBlock store
  getHeightForTx
    | inMemory store => getHeightForTx store
    | fjall store => getHeightForTx store
    | postgres store => getHeightForTx store
  addBlock block := dispatch (addBlock block) (addBlock block) (addBlock block)
  archiveBlock height :=
    dispatch (archiveBlock height) (archiveBlock height) (archiveBlock height)
  getLatestArchivedBlockHeight
    | inMemory store => getLatestArchivedBlockHeight store
    | fjall store => getLatestArchivedBlockHeight store
    | postgres store => getLatestArchivedBlockHeight store

end KolmeStoreInner

/-! ## The cache -/

/-- The blocks of the cache of a node. -/
def blockCacheSize : Nat := 60

structure KolmeStore (β : Type) where
  inner : KolmeStoreInner β
  blockCache : LruCache BlockHeight (StorableBlock β)

namespace KolmeStore

def new (backend : Backend) : KolmeStore β where
  inner := backend.new
  blockCache := .empty blockCacheSize (by decide)

variable [MerkleHashed (StorableBlock β)] [Rendered β]

def addBlock (block : StorableBlock β) : Exec KolmeStoreError (KolmeStore β) Unit := fun self =>
  let (insertionResult, inner) := KolmeBackingStore.addBlock block self.inner
  match insertionResult with
  | .error (.matchingBlockAlreadyInserted _) | .ok _ =>
    (.ok (), { inner, blockCache := self.blockCache.put block.height block })
  | .error e => (.error e, { self with inner })

def loadBlock (self : KolmeStore β) (height : BlockHeight) :
    Except KolmeStoreError (Option (StorableBlock β)) :=
  match self.blockCache.peek height with
  | some storable => .ok (some storable)
  | none => KolmeBackingStore.loadBlock self.inner height

def hasBlock (self : KolmeStore β) (height : BlockHeight) : Except KolmeStoreError Bool :=
  if (self.blockCache.peek height).isSome then .ok true
  else KolmeBackingStore.hasBlock self.inner height

/-- The node's store offers the operations of the backing store in use. -/
instance : KolmeBackingStore (KolmeStore β) β where
  loadLatestBlock self := KolmeBackingStore.loadLatestBlock self.inner
  loadBlock := loadBlock
  hasBlock := hasBlock
  getHeightForTx self := KolmeBackingStore.getHeightForTx self.inner
  addBlock := addBlock
  archiveBlock height := Exec.zoom inner (fun self inner => { self with inner })
    (KolmeBackingStore.archiveBlock height)
  getLatestArchivedBlockHeight self := KolmeBackingStore.getLatestArchivedBlockHeight self.inner

end KolmeStore

end Kolme
