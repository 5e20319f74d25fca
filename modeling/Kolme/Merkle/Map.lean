import Kolme.Merkle.Node

/-!
# The Merkle map

The map is a node at depth zero. Its iterators walk between two bounds that move towards each
other. A panic is the result `none`.
-/

namespace Kolme.Merkle

/-- Values which can be used as keys in a `MerkleMap`. -/
class ToMerkleKey (K : Type) where
  toMerkleKey : K → MerkleKey

structure MerkleMap (K V : Type) where
  node : Node K V

namespace MerkleMap

variable {K V : Type}

def new : MerkleMap K V := ⟨.default⟩

def isEmpty (map : MerkleMap K V) : Bool := map.node.isEmpty

def len (map : MerkleMap K V) : Nat := map.node.len

def insert [ToMerkleKey K] (key : K) (value : V) (map : MerkleMap K V) :
    Option (MerkleMap K V × Option (K × V)) := do
  let keyBytes := ToMerkleKey.toMerkleKey key
  let (node, v) ← map.node.insert maxDepth { keyBytes, key, value }
  return (⟨node⟩, v)

/-- The lookups take any value that has a Merkle key, and use only that. -/
def get (key : MerkleKey) (map : MerkleMap K V) : Option V :=
  (map.node.get key 0).map LeafEntry.value

def containsKey (key : MerkleKey) (map : MerkleMap K V) : Bool := (map.get key).isSome

/-- The caller changes the value through the reference it gets. -/
def getMut (key : MerkleKey) (change : V → V) (map : MerkleMap K V) : MerkleMap K V × Option V :=
  let (node, v) := map.node.getMut key change 0
  (⟨node⟩, v)

def getOrInsert [ToMerkleKey K] (key : K) (value : V) (change : V → V) (map : MerkleMap K V) :
    Option (MerkleMap K V × V) := do
  let keyBytes := ToMerkleKey.toMerkleKey key
  if (map.node.get keyBytes 0).isSome then
    let (map, v) := map.getMut keyBytes change
    return (map, ← v)
  else
    let (map, _) ← map.insert key value
    let (map, v) := map.getMut keyBytes change
    return (map, ← v)

def getOrDefault [ToMerkleKey K] [Inhabited V] (key : K) (change : V → V) (map : MerkleMap K V) :
    Option (MerkleMap K V × V) :=
  map.getOrInsert key default change

def remove (key : MerkleKey) (map : MerkleMap K V) : MerkleMap K V × Option (K × V) :=
  let (node, v) := map.node.remove key 0
  (⟨node⟩, v)

end MerkleMap

/-! ## Iterators -/

inductive Bound
  | included (key : MerkleKey)
  | excluded (key : MerkleKey)
  | unbounded

structure Iter (K V : Type) where
  node : Node K V
  startBound : Bound
  endBound : Bound

variable {K V : Type}

def MerkleMap.range (startBound endBound : Bound) (map : MerkleMap K V) : Iter K V :=
  ⟨map.node, startBound, endBound⟩

def MerkleMap.iter (map : MerkleMap K V) : Iter K V := map.range .unbounded .unbounded

namespace Bound

/-- The key of a bound, and whether it is inside. -/
def key? : Bound → Option (MerkleKey × Bool)
  | included key => some (key, true)
  | excluded key => some (key, false)
  | unbounded => none

/-- The key is not before a start. -/
def allowsFrom (key : MerkleKey) : Bound → Bool
  | included start => start ≤ key
  | excluded start => start < key
  | unbounded => true

/-- The key is not after an end. -/
def allowsTo (key : MerkleKey) : Bound → Bool
  | included last => key ≤ last
  | excluded last => key < last
  | unbounded => true

end Bound

namespace Iter

def isComplete (self : Iter K V) : Bool :=
  match self.startBound.key?, self.endBound.key? with
  | some (start, startInc), some (last, endInc) =>
    if start < last then false else if start = last then !startInc && !endInc else true
  | _, _ => false

/-- The first entry that is not before the start. -/
def startEntry (self : Iter K V) : Option (LeafEntry K V) :=
  match self.startBound with
  | .included key => self.node.get key 0 <|> self.node.findEntryAfter key 0
  | .excluded key => self.node.findEntryAfter key 0
  | .unbounded => self.node.get ⟨[]⟩ 0 <|> self.node.findEntryAfter ⟨[]⟩ 0

/-- The last entry that is not after the end. -/
def endEntry (self : Iter K V) : Option (LeafEntry K V) :=
  match self.endBound with
  | .included key => self.node.get key 0 <|> self.node.findEntryBefore key 0
  | .excluded key => self.node.findEntryBefore key 0
  | .unbounded => self.node.findLastEntry

def next (self : Iter K V) : Option (K × V) × Iter K V :=
  if self.isComplete then (none, self)
  else
    match self.startEntry with
    | none => (none, self)
    | some entry =>
      let self := { self with startBound := .excluded entry.keyBytes }
      match self.endBound with
      | .included last => if last < entry.keyBytes then (none, self) else (some entry.pair, self)
      | .excluded last => if last ≤ entry.keyBytes then (none, self) else (some entry.pair, self)
      | .unbounded => (some entry.pair, self)

def nextBack (self : Iter K V) : Option (K × V) × Iter K V :=
  if self.isComplete then (none, self)
  else
    match self.endEntry with
    | none => (none, self)
    | some entry =>
      let self := { self with endBound := .excluded entry.keyBytes }
      match self.startBound with
      | .included start => if entry.keyBytes < start then (none, self) else (some entry.pair, self)
      | .excluded start => if entry.keyBytes ≤ start then (none, self) else (some entry.pair, self)
      | .unbounded => (some entry.pair, self)

end Iter

end Kolme.Merkle
