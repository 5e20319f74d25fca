import Kolme.Merkle.Key
import Mathlib.Data.List.FinRange
import Mathlib.Logic.Function.Basic

/-!
# Nodes of the Merkle map

A leaf holds up to sixteen entries. When it is full it becomes a tree, which sends each entry to one
of sixteen branches by the next nibble of its key, and keeps the entry whose key has no next nibble.
A tree that has lost enough entries becomes a leaf again.

The depth of a node is a `u16`. A function that creates nodes counts the levels that are left below
the node, and an overflow of the depth is a panic, the result `none`.
-/

namespace Kolme.Merkle

variable {K V : Type}

structure LeafEntry (K V : Type) where
  keyBytes : MerkleKey
  key : K
  value : V
deriving DecidableEq

def LeafEntry.pair (entry : LeafEntry K V) : K × V := (entry.key, entry.value)

inductive Node (K V : Type) where
  | leaf (values : List (LeafEntry K V))
  | tree (len : Nat) (leaf : Option (LeafEntry K V)) (branches : Nibble → Option (Node K V))

/-- The contents of a tree node. -/
@[ext] structure TreeContents (K V : Type) where
  len : Nat
  leaf : Option (LeafEntry K V)
  branches : Nibble → Option (Node K V)

namespace TreeContents

def new : TreeContents K V := ⟨0, none, fun _ => none⟩

def node (tree : TreeContents K V) : Node K V := .tree tree.len tree.leaf tree.branches

end TreeContents

namespace Node

def default : Node K V := .leaf []

/-- A tree is never empty. -/
def isEmpty : Node K V → Bool
  | .leaf values => values.isEmpty
  | .tree .. => false

def len : Node K V → Nat
  | .leaf values => values.length
  | .tree len .. => len

/-- The children of a node are smaller. -/
theorem induction {P : Node K V → Prop} (leaf : ∀ values, P (.leaf values))
    (tree : ∀ tree : TreeContents K V,
      (∀ i node, tree.branches i = some node → P node) → P tree.node) (node : Node K V) : P node :=
  Node.rec (motive_1 := P) (motive_2 := fun slot => ∀ node, slot = some node → P node) leaf
    (fun len own branches ih => tree ⟨len, own, branches⟩ ih) (fun _ h => nomatch h)
    (fun _ ih _ h => Option.some.inj h ▸ ih) node

end Node

/-! ## Entries -/

mutual
/-- The entries of a node in the order in which they are drained. -/
def Node.entries : Node K V → List (LeafEntry K V)
  | .leaf values => values
  | .tree _ own branches =>
    own.toList ++ (List.finRange 16).flatMap fun i => slotEntries (branches i)
termination_by structural node => node

def slotEntries : Option (Node K V) → List (LeafEntry K V)
  | none => []
  | some node => node.entries
termination_by structural slot => slot
end

def TreeContents.entries (tree : TreeContents K V) : List (LeafEntry K V) := tree.node.entries

/-! ## Lookups -/

mutual
def Node.get (key : MerkleKey) (depth : Nat) : Node K V → Option (LeafEntry K V)
  | .leaf values => values.find? fun entry => entry.keyBytes = key
  | .tree _ own branches =>
    match key.getIndexForDepth depth with
    | none => own
    | some index => slotGet key (depth + 1) (branches index)
termination_by structural node => node

def slotGet (key : MerkleKey) (depth : Nat) : Option (Node K V) → Option (LeafEntry K V)
  | none => none
  | some node => node.get key depth
termination_by structural slot => slot
end

/-- The first entry with the key, after the change that the caller makes through the reference, and
the value it had. -/
def LeafContents.getMut (key : MerkleKey) (change : V → V) :
    List (LeafEntry K V) → List (LeafEntry K V) × Option V
  | [] => ([], none)
  | entry :: values =>
    if entry.keyBytes = key then
      ({ entry with value := change entry.value } :: values, some entry.value)
    else
      let (values, v) := LeafContents.getMut key change values
      (entry :: values, v)

mutual
def Node.getMut (key : MerkleKey) (change : V → V) (depth : Nat) :
    Node K V → Node K V × Option V
  | .leaf values =>
    let (values, v) := LeafContents.getMut key change values
    (.leaf values, v)
  | .tree len own branches =>
    match key.getIndexForDepth depth with
    | none =>
      (.tree len (own.map fun entry => { entry with value := change entry.value }) branches,
        own.map LeafEntry.value)
    | some index =>
      let (branch, v) := slotGetMut key change (depth + 1) (branches index)
      (.tree len own (Function.update branches index branch), v)
termination_by structural node => node

def slotGetMut (key : MerkleKey) (change : V → V) (depth : Nat) :
    Option (Node K V) → Option (Node K V) × Option V
  | none => (none, none)
  | some node =>
    let (node, v) := node.getMut key change depth
    (some node, v)
termination_by structural slot => slot
end

/-! ## Insertions -/

namespace LeafContents

def sort (values : List (LeafEntry K V)) : List (LeafEntry K V) :=
  values.mergeSort fun x y => x.keyBytes ≤ y.keyBytes

/-- The first entry with the key of the new one makes room for it. -/
def replace (entry : LeafEntry K V) :
    List (LeafEntry K V) → Option (List (LeafEntry K V) × LeafEntry K V)
  | [] => none
  | oldEntry :: values =>
    if oldEntry.keyBytes = entry.keyBytes then some (entry :: values, oldEntry)
    else do
      let (values, replaced) ← replace entry values
      return (oldEntry :: values, replaced)

/-- The entries of a full leaf, one after another. None of them is in the tree yet. -/
def moveTo
    (treeInsert : LeafEntry K V → TreeContents K V → Option (TreeContents K V × Option (K × V))) :
    List (LeafEntry K V) → TreeContents K V → Option (TreeContents K V)
  | [], tree => some tree
  | entry :: values, tree => do
    let (tree, old) ← treeInsert entry tree
    if old.isNone then moveTo treeInsert values tree else none

def insert
    (treeInsert : LeafEntry K V → TreeContents K V → Option (TreeContents K V × Option (K × V)))
    (entry : LeafEntry K V) (values : List (LeafEntry K V)) : Option (Node K V × Option (K × V)) :=
  match replace entry values with
  | some (values, oldEntry) => some (.leaf values, some oldEntry.pair)
  | none =>
    if values.length < 16 then some (.leaf (sort (values ++ [entry])), none)
    else do
      let (tree, _) ← treeInsert entry .new
      let tree ← moveTo treeInsert values tree
      return (tree.node, none)

end LeafContents

/-- The insertion into a node, given the insertion into a tree at the same depth. -/
def Node.insertWith
    (treeInsert : LeafEntry K V → TreeContents K V → Option (TreeContents K V × Option (K × V)))
    (entry : LeafEntry K V) : Node K V → Option (Node K V × Option (K × V))
  | .leaf values => LeafContents.insert treeInsert entry values
  | .tree len own branches => do
    let (contents, v) ← treeInsert entry ⟨len, own, branches⟩
    return (contents.node, v)

def maxDepth : Nat := 65535

/-- The insertion into a tree with `room` levels below it. -/
def TreeContents.insert (room : Nat) (entry : LeafEntry K V) (tree : TreeContents K V) :
    Option (TreeContents K V × Option (K × V)) :=
  match entry.keyBytes.getIndexForDepth (maxDepth - room) with
  | none =>
    some (⟨if tree.leaf.isNone then tree.len + 1 else tree.len, some entry, tree.branches⟩,
      tree.leaf.map LeafEntry.pair)
  | some index =>
    match room with
    | 0 => none
    | room + 1 => do
      let current := (tree.branches index).getD .default
      let (branch, v) ← current.insertWith (TreeContents.insert room) entry
      return (⟨if v.isNone then tree.len + 1 else tree.len, tree.leaf,
        Function.update tree.branches index (some branch)⟩, v)
termination_by structural room

def Node.insert (room : Nat) (entry : LeafEntry K V) (node : Node K V) :
    Option (Node K V × Option (K × V)) :=
  node.insertWith (TreeContents.insert room) entry

/-! ## Removals -/

namespace LeafContents

/-- The first entry with the key, and the others. -/
def remove (key : MerkleKey) :
    List (LeafEntry K V) → List (LeafEntry K V) × Option (K × V)
  | [] => ([], none)
  | entry :: values =>
    if entry.keyBytes = key then (values, some entry.pair)
    else
      let (values, v) := remove key values
      (entry :: values, v)

end LeafContents

def TreeContents.intoNodeAfterRemoval (tree : TreeContents K V) : Node K V :=
  if tree.len ≤ 16 then .leaf tree.entries else tree.node

mutual
def Node.remove (key : MerkleKey) (depth : Nat) : Node K V → Node K V × Option (K × V)
  | .leaf values =>
    let (values, v) := LeafContents.remove key values
    (.leaf values, v)
  | .tree len own branches =>
    match key.getIndexForDepth depth with
    | none =>
      match own with
      | some entry =>
        if entry.keyBytes = key then
          (TreeContents.intoNodeAfterRemoval ⟨len - 1, none, branches⟩, some entry.pair)
        else (.tree len (some entry) branches, none)
      | none => (.tree len none branches, none)
    | some index =>
      match slotRemove key (depth + 1) (branches index) with
      | none => (.tree len own branches, none)
      | some (branch, v) =>
        let branches :=
          Function.update branches index (if branch.isEmpty then none else some branch)
        if v.isSome then (TreeContents.intoNodeAfterRemoval ⟨len - 1, own, branches⟩, v)
        else (.tree len own branches, none)
termination_by structural node => node

def slotRemove (key : MerkleKey) (depth : Nat) :
    Option (Node K V) → Option (Node K V × Option (K × V))
  | none => none
  | some node => some (node.remove key depth)
termination_by structural slot => slot
end

/-! ## Searches -/

mutual
def Node.findFirstEntry : Node K V → Option (LeafEntry K V)
  | .leaf values => values.head?
  | .tree _ own branches =>
    own <|> (List.finRange 16).findSome? fun i => slotFindFirstEntry (branches i)
termination_by structural node => node

def slotFindFirstEntry : Option (Node K V) → Option (LeafEntry K V)
  | none => none
  | some node => node.findFirstEntry
termination_by structural slot => slot
end

mutual
def Node.findLastEntry : Node K V → Option (LeafEntry K V)
  | .leaf values => values.getLast?
  | .tree _ own branches =>
    ((List.finRange 16).reverse.findSome? fun i => slotFindLastEntry (branches i)) <|> own
termination_by structural node => node

def slotFindLastEntry : Option (Node K V) → Option (LeafEntry K V)
  | none => none
  | some node => node.findLastEntry
termination_by structural slot => slot
end

mutual
def Node.findEntryAfter (key : MerkleKey) (depth : Nat) : Node K V → Option (LeafEntry K V)
  | .leaf values => values.find? fun entry => key < entry.keyBytes
  | .tree _ own branches =>
    let branch := (key.getIndexForDepth depth).getD 0
    (own.filter fun entry => key < entry.keyBytes) <|>
      -- For an exact match, continue checking the key's branches.
      slotFindEntryAfter key (depth + 1) (branches branch) <|>
      -- And for all the other branches, simply try and find the first entry.
      ((List.finRange 16).drop (branch.val + 1)).findSome? fun i => slotFindFirstEntry (branches i)
termination_by structural node => node

def slotFindEntryAfter (key : MerkleKey) (depth : Nat) :
    Option (Node K V) → Option (LeafEntry K V)
  | none => none
  | some node => node.findEntryAfter key depth
termination_by structural slot => slot
end

mutual
def Node.findEntryBefore (key : MerkleKey) (depth : Nat) : Node K V → Option (LeafEntry K V)
  | .leaf values => values.reverse.find? fun entry => entry.keyBytes < key
  | .tree _ own branches =>
    let branch := (key.getIndexForDepth depth).getD 0
    -- Check the specified branch first and continue finding entries before it.
    slotFindEntryBefore key (depth + 1) (branches branch) <|>
      -- Otherwise, take any entry from the previous branches.
      (((List.finRange 16).take branch.val).reverse.findSome? fun i =>
        slotFindLastEntry (branches i)) <|>
      own.filter fun entry => entry.keyBytes < key
termination_by structural node => node

def slotFindEntryBefore (key : MerkleKey) (depth : Nat) :
    Option (Node K V) → Option (LeafEntry K V)
  | none => none
  | some node => node.findEntryBefore key depth
termination_by structural slot => slot
end

/-! ## Draining -/

/-- The branches in turn until one gives a pair. Branches without entries are cleared. -/
def popBranches (pop : Nibble → Option (K × V) × Option (Node K V)) :
    List Nibble → (Nibble → Option (Node K V)) → Option (K × V) × (Nibble → Option (Node K V))
  | [], branches => (none, branches)
  | i :: is, branches =>
    let (popped, node) := pop i
    let branches :=
      Function.update branches i (if node.any Node.isEmpty then none else node)
    match popped with
    | some pair => (some pair, branches)
    | none => popBranches pop is branches

mutual
def Node.popFirst : Node K V → Option (K × V) × Node K V
  | .leaf [] => (none, .leaf [])
  | .leaf (entry :: values) => (some entry.pair, .leaf values)
  | .tree len (some entry) branches => (some entry.pair, .tree len none branches)
  | .tree len none branches =>
    let (popped, branches) :=
      popBranches (fun i => slotPopFirst (branches i)) (List.finRange 16) branches
    (popped, .tree len none branches)
termination_by structural node => node

def slotPopFirst : Option (Node K V) → Option (K × V) × Option (Node K V)
  | none => (none, none)
  | some node =>
    let (popped, node) := node.popFirst
    (popped, some node)
termination_by structural slot => slot
end

end Kolme.Merkle
