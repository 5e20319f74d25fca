import Kolme.Core.Block
import Kolme.Lib.Service
import Kolme.Merkle.Contents

/-!
# The interface of the stores

What every backing store offers: blocks by height, heights by the hash of a transaction, and the
latest height that was archived.
-/

namespace Kolme

/-- Contents of a block to be stored in a database. -/
structure StorableBlock (β : Type) where
  height : BlockHeight
  blockhash : BlockHash
  txhash : TxHash
  block : β
deriving DecidableEq

/-- Values with serialized contents, which are stored under their hash. -/
class MerkleHashed (α : Type) where
  contentHash : α → Sha256Hash

/-- Values that can be rendered as JSON text and read. -/
class Rendered (β : Type) where
  toText : β → String
  fromText : String → Option β

/-- The text of a value reads back as the value. -/
def ReadsBack {β : Type} [Rendered β] (b : β) : Prop :=
  Rendered.fromText (Rendered.toText b) = some b

/-- The errors of the libraries under the stores. -/
inductive CustomError
  | tryFromInt
  | merkle (e : Merkle.MerkleSerialError)
  /-- Error code 23505 of the database -/
  | uniqueViolation
  | json
deriving DecidableEq

inductive KolmeStoreError
  | custom (e : CustomError)
  /-- Reports a diverging hash with same height -/
  | conflictingBlockInDb (height : BlockHeight) (adding existing : Sha256Hash)
  /-- Reports a double insert (Block already exists with same hash and insert) -/
  | matchingBlockAlreadyInserted (height : BlockHeight)
  | txAlreadyInDb (txhash : TxHash)
deriving DecidableEq

/-- The operations on blocks of a backing store, whose states are `σ`. -/
class KolmeBackingStore (σ : Type) (β : outParam Type) where
  loadLatestBlock : σ → Except KolmeStoreError (Option BlockHeight)
  loadBlock : σ → BlockHeight → Except KolmeStoreError (Option (StorableBlock β))
  hasBlock : σ → BlockHeight → Except KolmeStoreError Bool
  getHeightForTx : σ → TxHash → Except KolmeStoreError (Option BlockHeight)
  addBlock : StorableBlock β → Exec KolmeStoreError σ Unit
  archiveBlock : BlockHeight → Exec KolmeStoreError σ Unit
  getLatestArchivedBlockHeight : σ → Except KolmeStoreError (Option BlockHeight)

/-! ## Calls -/

namespace Store

inductive Call (β : Type)
  | loadLatestBlock
  | loadBlock (height : BlockHeight)
  | hasBlock (height : BlockHeight)
  | getHeightForTx (txhash : TxHash)
  | addBlock (block : StorableBlock β)
  | archiveBlock (height : BlockHeight)
  | getLatestArchivedBlockHeight

inductive Answer (β : Type)
  | done
  | height (height : Option BlockHeight)
  | block (block : Option (StorableBlock β))
  | found (found : Bool)
deriving DecidableEq

variable {σ β : Type} [KolmeBackingStore σ β]

def Call.perform : Call β → Exec KolmeStoreError σ (Answer β)
  | loadLatestBlock => fun s => (Answer.height <$> KolmeBackingStore.loadLatestBlock s, s)
  | loadBlock height => fun s => (Answer.block <$> KolmeBackingStore.loadBlock s height, s)
  | hasBlock height => fun s => (Answer.found <$> KolmeBackingStore.hasBlock s height, s)
  | getHeightForTx txhash => fun s =>
    (Answer.height <$> KolmeBackingStore.getHeightForTx s txhash, s)
  | addBlock block => do
    KolmeBackingStore.addBlock block
    return .done
  | archiveBlock height => do
    KolmeBackingStore.archiveBlock height
    return .done
  | getLatestArchivedBlockHeight => fun s =>
    (Answer.height <$> KolmeBackingStore.getLatestArchivedBlockHeight s, s)

/-- A backing store as a service. -/
def service (σ : Type) {β : Type} [KolmeBackingStore σ β] :
    Service σ (Call β) (Except KolmeStoreError (Answer β)) where
  call s call := call.perform s

/-- What a caller tells apart: an answer, the report that exactly this block is there already, and
any other failure. -/
inductive Verdict (β : Type)
  | answer (answer : Answer β)
  | alreadyInserted (height : BlockHeight)
  | failed
deriving DecidableEq

def Verdict.of : Except KolmeStoreError (Answer β) → Verdict β
  | .ok a => .answer a
  | .error (.matchingBlockAlreadyInserted h) => .alreadyInserted h
  | .error _ => .failed

end Store

end Kolme
