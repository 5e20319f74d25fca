import Kolme.Lib.OnceCells
import Kolme.Lib.Service
import Kolme.Merkle.NodeFormat

/-!
# Nodes that keep their serialized contents

Every node is held in a cell of its own, which is set when the node is serialized and is shared with
the clones of the node. A node that is changed in place gets a new cell only if its cell is set; a
node that is taken apart and built anew is in a new cell.
-/

namespace Kolme.Merkle

open Exec

variable {K V : Type}

/-- A node, with the cells in which its contents are locked. -/
inductive LockableNode (K V : Type) where
  | leaf (locked : ℕ) (values : List (LeafEntry K V))
  | tree (locked : ℕ) (len : Nat) (leaf : Option (LeafEntry K V))
    (branches : Nibble → Option (LockableNode K V))

/-- The contents of a tree node. -/
structure LockableTree (K V : Type) where
  len : Nat
  leaf : Option (LeafEntry K V)
  branches : Nibble → Option (LockableNode K V)

abbrev Cells := OnceCells MerkleContents

/-! ## Nodes without their cells -/

mutual
def LockableNode.node : LockableNode K V → Node K V
  | .leaf _ values => .leaf values
  | .tree _ len leaf branches => .tree len leaf fun i => slotNode (branches i)
termination_by structural node => node

def slotNode : Option (LockableNode K V) → Option (Node K V)
  | none => none
  | some node => some node.node
termination_by structural slot => slot
end

namespace LockableTree

def new : LockableTree K V := ⟨0, none, fun _ => none⟩

def contents (tree : LockableTree K V) : TreeContents K V where
  len := tree.len
  leaf := tree.leaf
  branches i := slotNode (tree.branches i)

def node (locked : ℕ) (tree : LockableTree K V) : LockableNode K V :=
  .tree locked tree.len tree.leaf tree.branches

/-- A tree in a new cell -/
def lock (tree : LockableTree K V) : Exec Unit Cells (LockableNode K V) := do
  return tree.node (← OnceCells.alloc)

end LockableTree

namespace LockableNode

/-- A leaf in a new cell -/
def lockLeaf (values : List (LeafEntry K V)) : Exec Unit Cells (LockableNode K V) := do
  return .leaf (← OnceCells.alloc) values

/-- The cell of a node. -/
def locked : LockableNode K V → ℕ
  | leaf locked _ => locked
  | tree locked .. => locked

def isEmpty (node : LockableNode K V) : Bool := node.node.isEmpty

end LockableNode

/-! ## Changes in place -/

mutual
def LockableNode.getMut (key : MerkleKey) (change : V → V) (depth : Nat) :
    LockableNode K V → Exec Unit Cells (LockableNode K V × Option V)
  | .leaf locked values => do
    let locked ← OnceCells.reset locked
    let (values, v) := LeafContents.getMut key change values
    return (.leaf locked values, v)
  | .tree locked len own branches => do
    let locked ← OnceCells.reset locked
    match key.getIndexForDepth depth with
    | none =>
      return (.tree locked len (own.map fun entry => { entry with value := change entry.value })
        branches, own.map LeafEntry.value)
    | some index => do
      let (branch, v) ← slotGetMutLocked key change (depth + 1) (branches index)
      return (.tree locked len own (Function.update branches index branch), v)
termination_by structural node => node

def slotGetMutLocked (key : MerkleKey) (change : V → V) (depth : Nat) :
    Option (LockableNode K V) → Exec Unit Cells (Option (LockableNode K V) × Option V)
  | none => return (none, none)
  | some node => do
    let (node, v) ← node.getMut key change depth
    return (some node, v)
termination_by structural slot => slot
end

/-! ## Insertions -/

namespace LeafContents

/-- The entries of a full leaf, one after another. None of them is in the tree yet. -/
def moveToLocked (treeInsert : LeafEntry K V → LockableTree K V →
      Exec Unit Cells (LockableTree K V × Option (K × V))) :
    List (LeafEntry K V) → LockableTree K V → Exec Unit Cells (LockableTree K V)
  | [], tree => return tree
  | entry :: values, tree => do
    let (tree, old) ← treeInsert entry tree
    if old.isNone then moveToLocked treeInsert values tree else Exec.throw ()

def insertLocked (treeInsert : LeafEntry K V → LockableTree K V →
      Exec Unit Cells (LockableTree K V × Option (K × V)))
    (entry : LeafEntry K V) (values : List (LeafEntry K V)) :
    Exec Unit Cells (LockableNode K V × Option (K × V)) :=
  match replace entry values with
  | some (values, oldEntry) => do return (← LockableNode.lockLeaf values, some oldEntry.pair)
  | none =>
    if values.length < 16 then do
      return (← LockableNode.lockLeaf (sort (values ++ [entry])), none)
    else do
      let (tree, _) ← treeInsert entry .new
      let tree ← moveToLocked treeInsert values tree
      return (← tree.lock, none)

end LeafContents

/-- The insertion into a node, given the insertion into a tree at the same depth. -/
def LockableNode.insertWith (treeInsert : LeafEntry K V → LockableTree K V →
      Exec Unit Cells (LockableTree K V × Option (K × V)))
    (entry : LeafEntry K V) :
    LockableNode K V → Exec Unit Cells (LockableNode K V × Option (K × V))
  | .leaf _ values => LeafContents.insertLocked treeInsert entry values
  | .tree locked len own branches => do
    let locked ← OnceCells.reset locked
    let (contents, v) ← treeInsert entry ⟨len, own, branches⟩
    return (contents.node locked, v)

/-- The node of a branch, which is an empty leaf if there is none. -/
def LockableNode.orDefault : Option (LockableNode K V) → Exec Unit Cells (LockableNode K V)
  | some node => return node
  | none => lockLeaf []

/-- The insertion into a tree with `room` levels below it. -/
def LockableTree.insert (room : Nat) (entry : LeafEntry K V) (tree : LockableTree K V) :
    Exec Unit Cells (LockableTree K V × Option (K × V)) :=
  match entry.keyBytes.getIndexForDepth (maxDepth - room) with
  | none =>
    return (⟨if tree.leaf.isNone then tree.len + 1 else tree.len, some entry, tree.branches⟩,
      tree.leaf.map LeafEntry.pair)
  | some index =>
    match room with
    | 0 => Exec.throw ()
    | room + 1 => do
      let current ← LockableNode.orDefault (tree.branches index)
      let (branch, v) ← current.insertWith (LockableTree.insert room) entry
      return (⟨if v.isNone then tree.len + 1 else tree.len, tree.leaf,
        Function.update tree.branches index (some branch)⟩, v)
termination_by structural room

def LockableNode.insert (room : Nat) (entry : LeafEntry K V) (node : LockableNode K V) :
    Exec Unit Cells (LockableNode K V × Option (K × V)) :=
  node.insertWith (LockableTree.insert room) entry

/-! ## Removals -/

def LockableTree.intoNodeAfterRemoval (tree : LockableTree K V) :
    Exec Unit Cells (LockableNode K V) :=
  if tree.len ≤ 16 then LockableNode.lockLeaf tree.contents.entries else tree.lock

mutual
def LockableNode.remove (key : MerkleKey) (depth : Nat) :
    LockableNode K V → Exec Unit Cells (LockableNode K V × Option (K × V))
  | .leaf _ values => do
    let (values, v) := LeafContents.remove key values
    return (← LockableNode.lockLeaf values, v)
  | .tree _ len own branches =>
    match key.getIndexForDepth depth with
    | none =>
      match own with
      | some entry =>
        if entry.keyBytes = key then do
          return (← LockableTree.intoNodeAfterRemoval ⟨len - 1, none, branches⟩, some entry.pair)
        else do return (← LockableTree.lock ⟨len, some entry, branches⟩, none)
      | none => do return (← LockableTree.lock ⟨len, none, branches⟩, none)
    | some index => do
      match ← slotRemoveLocked key (depth + 1) (branches index) with
      | none => return (← LockableTree.lock ⟨len, own, branches⟩, none)
      | some (branch, v) =>
        let branches :=
          Function.update branches index (if branch.isEmpty then none else some branch)
        if v.isSome then
          return (← LockableTree.intoNodeAfterRemoval ⟨len - 1, own, branches⟩, v)
        else return (← LockableTree.lock ⟨len, own, branches⟩, none)
termination_by structural node => node

def slotRemoveLocked (key : MerkleKey) (depth : Nat) :
    Option (LockableNode K V) → Exec Unit Cells (Option (LockableNode K V × Option (K × V)))
  | none => return none
  | some node => do return some (← node.remove key depth)
termination_by structural slot => slot
end

/-! ## Serializing -/

/-- Store the hash of contents. -/
def MerkleSerializer.storeContents [Sha256] (contents : MerkleContents) : MerkleSerializer :=
  ⟨(storeHash contents.hash).buff, [contents]⟩

/-- The results of a program for the elements of a list, one after another. -/
def collect {ε σ α β : Type} (f : α → Exec ε σ β) : List α → Exec ε σ (List β)
  | [] => return []
  | a :: as => do
    let b ← f a
    return b :: (← collect f as)

section

variable [MerkleSerializeRaw V] [Sha256]

/-- The contents that are locked, or those that are serialized now and locked then. -/
def lockedOr (locked : ℕ) (serialize : Exec Unit Cells MerkleContents) :
    Exec Unit Cells MerkleContents := do
  match (← Exec.get).contents locked with
  | some contents => return contents
  | none => do
    let contents ← serialize
    OnceCells.getOrInit locked contents
    return contents

mutual
def LockableNode.serialize : LockableNode K V → Exec Unit Cells MerkleContents
  | .leaf locked values => lockedOr locked do
    return (LeafContents.merkleSerialize values).finish
  | .tree locked len leaf branches => lockedOr locked do
    let children ← collect (fun i => slotSerializeLocked (branches i)) (List.finRange 16)
    return (.storeByte 43 ++ .storeUsize len ++ storeLeaf leaf ++
      .storeAll .storeContents children : MerkleSerializer).finish
termination_by structural node => node

def slotSerializeLocked : Option (LockableNode K V) → Exec Unit Cells MerkleContents
  | none => return emptyBranchSerialize.finish
  | some node => node.serialize
termination_by structural slot => slot
end

end

/-! ## Maps -/

/-- The maps of a program, by its variables. -/
structure Maps (K V : Type) where
  cells : Cells
  held : ℕ → Option (LockableNode K V)

inductive MapCall (K V : Type) where
  | new (i : ℕ)
  | clone (i j : ℕ)
  | drop (i : ℕ)
  | insert (i : ℕ) (key : K) (value : V)
  | getMut (i : ℕ) (key : MerkleKey) (change : V → V)
  | remove (i : ℕ) (key : MerkleKey)
  | serialize (i : ℕ)

inductive MapAnswer (K V : Type) where
  | done
  | absent
  | panic
  | entry (old : Option (K × V))
  | value (v : Option V)
  | contents (contents : MerkleContents)

namespace Maps

def empty : Maps K V := ⟨.empty, fun _ => none⟩

/-- A variable holds the node that a program makes. -/
def hold (i : ℕ) (x : Exec Unit Cells (LockableNode K V)) (maps : Maps K V) : Maps K V :=
  match x maps.cells with
  | (.ok node, cells) => ⟨cells, Function.update maps.held i (some node)⟩
  | (.error _, cells) => { maps with cells }

/-- The node of a variable is taken and another one is put in its place. A panic leaves the empty
map that was there in between. -/
def change {β : Type} (i : ℕ) (answer : β → MapAnswer K V)
    (x : LockableNode K V → Exec Unit Cells (LockableNode K V × β)) (maps : Maps K V) :
    MapAnswer K V × Maps K V :=
  match maps.held i with
  | none => (.absent, maps)
  | some node =>
    match x node maps.cells with
    | (.ok (node, v), cells) => (answer v, ⟨cells, Function.update maps.held i (some node)⟩)
    | (.error _, cells) => (.panic, hold i (LockableNode.lockLeaf []) ⟨cells, maps.held⟩)

variable [ToMerkleKey K] [MerkleSerializeRaw V] [Sha256]

def call (maps : Maps K V) : MapCall K V → MapAnswer K V × Maps K V
  | .new i => (.done, maps.hold i (LockableNode.lockLeaf []))
  | .clone i j =>
    match maps.held i with
    | none => (.absent, maps)
    | some node => (.done, { maps with held := Function.update maps.held j (some node) })
  | .drop i => (.done, { maps with held := Function.update maps.held i none })
  | .insert i key value =>
    maps.change i .entry (LockableNode.insert maxDepth ⟨ToMerkleKey.toMerkleKey key, key, value⟩)
  | .getMut i key change => maps.change i .value (LockableNode.getMut key change 0)
  | .remove i key => maps.change i .entry (LockableNode.remove key 0)
  | .serialize i =>
    match maps.held i with
    | none => (.absent, maps)
    | some node =>
      match node.serialize maps.cells with
      | (.ok contents, cells) => (.contents contents, { maps with cells })
      | (.error _, cells) => (.panic, { maps with cells })

/-- The maps with their shared cells, call by call. -/
def service : Service (Maps K V) (MapCall K V) (MapAnswer K V) := ⟨call⟩

end Maps

end Kolme.Merkle
