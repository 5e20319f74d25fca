import Kolme.Lib.SortedMap
import Kolme.Store.Interface
import Mathlib.Data.Int.Order.Basic

/-!
# The Postgres store

Heights are signed columns of eight bytes. Unique keys on the height, the block's hash and the
transaction's hash guard the table of blocks; after a violation the height tells whether the block
is there already.
-/

namespace Kolme.Postgres

open KolmeStoreError CustomError

/-- `i64::try_from` -/
def tryI64 (height : BlockHeight) : Except KolmeStoreError ℤ :=
  if height < 2 ^ 63 then .ok height else .error (custom tryFromInt)

/-- `u64::try_from` -/
def tryU64 (height : ℤ) : Except KolmeStoreError BlockHeight :=
  if 0 ≤ height then .ok height.toNat else .error (custom tryFromInt)

/-- The cast `height as i64` -/
def asI64 (height : BlockHeight) : ℤ := (height : ℤ).bmod (2 ^ 64)

/-- A row of the table `blocks`, whose primary key is the height. -/
structure Row where
  blockhash : BlockHash
  rendered : String
  txhash : TxHash

/-- The tables, for blocks that are held as text. -/
structure Database (β : Type) where
  blocks : SortedMap ℤ Row
  archivedBlocks : SortedMap ℤ Unit

variable {β : Type}

namespace Database

def new : Database β := ⟨.empty, .empty⟩

/-- The height of the row that a condition selects. -/
def selectHeight (self : Database β) (p : Row → Bool) : Option ℤ :=
  (self.blocks.find? p).map Prod.fst

/-- Whether a row violates a unique key of the table. -/
def violates (self : Database β) (height : ℤ) (row : Row) : Bool :=
  self.blocks.contains height || (self.selectHeight (·.blockhash = row.blockhash)).isSome ||
    (self.selectHeight (·.txhash = row.txhash)).isSome

end Database

variable [Rendered β]

def addBlock (block : StorableBlock β) : Exec KolmeStoreError (Database β) Unit := do
  let heightI64 ← Exec.lift (tryI64 block.height)
  let rendered := Rendered.toText block.block
  let row : Row := { blockhash := block.blockhash, rendered, txhash := block.txhash }
  let pool ← Exec.get
  if pool.violates heightI64 row then
    match pool.blocks.get? heightI64 with
    | some existing =>
      if existing.blockhash = block.blockhash then
        Exec.throw (matchingBlockAlreadyInserted block.height)
      else
        Exec.throw (conflictingBlockInDb block.height block.blockhash existing.blockhash)
    | none => Exec.throw (custom uniqueViolation)
  else
    Exec.modify fun pool => { pool with blocks := pool.blocks.insert heightI64 row }

def loadBlock (pool : Database β) (height : BlockHeight) :
    Except KolmeStoreError (Option (StorableBlock β)) := do
  let heightI64 ← tryI64 height
  match pool.blocks.get? heightI64 with
  | none => return none
  | some row =>
    match Rendered.fromText row.rendered with
    | none => throw (custom json)
    | some block =>
      return some { height, blockhash := row.blockhash, txhash := row.txhash, block }

instance : KolmeBackingStore (Database β) β where
  loadLatestBlock pool := (pool.blocks.last?.map Prod.fst).mapM tryU64
  loadBlock := loadBlock
  hasBlock pool height := do
    let heightI64 ← tryI64 height
    return pool.blocks.contains heightI64
  getHeightForTx pool txhash := (pool.selectHeight (·.txhash = txhash)).mapM tryU64
  addBlock := addBlock
  archiveBlock height := Exec.modify fun pool =>
    { pool with archivedBlocks := pool.archivedBlocks.insert (asI64 height) () }
  -- The view `latest_archived_block_height` holds the greatest height.
  getLatestArchivedBlockHeight pool := (pool.archivedBlocks.last?.map Prod.fst).mapM tryU64

end Kolme.Postgres
