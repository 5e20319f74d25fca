import Kolme.Merkle.Search
import Kolme.Shared.Types

/-!
# The depth of a lookup

A lookup counts the depth in a `u16` on its way down, and panics where the depth of a branch does
not fit. In a tree whose keys leave room on the last level it never does, whatever key it is asked
for.
-/

namespace Kolme.Merkle

variable {K V : Type}

/-! ## Lookups that count -/

/-- The depth of a branch of a tree. -/
def nextDepth (depth : U16) : Option U16 :=
  if h : depth.val + 1 < 256 ^ 2 then some ⟨depth.val + 1, h⟩ else none

mutual
def Node.getCounted (key : MerkleKey) (depth : U16) : Node K V → Option (Option (LeafEntry K V))
  | .leaf values => some (values.find? fun entry => entry.keyBytes = key)
  | .tree _ own branches =>
    match key.getIndexForDepth depth.val with
    | none => some own
    | some index => slotGetCounted key depth (branches index)
termination_by structural node => node

def slotGetCounted (key : MerkleKey) (depth : U16) :
    Option (Node K V) → Option (Option (LeafEntry K V))
  | none => some none
  | some node => do node.getCounted key (← nextDepth depth)
termination_by structural slot => slot
end

mutual
def Node.getMutCounted (key : MerkleKey) (change : V → V) (depth : U16) :
    Node K V → Option (Node K V × Option V)
  | .leaf values =>
    let (values, v) := LeafContents.getMut key change values
    some (.leaf values, v)
  | .tree len own branches =>
    match key.getIndexForDepth depth.val with
    | none =>
      some (.tree len (own.map fun entry => { entry with value := change entry.value }) branches,
        own.map LeafEntry.value)
    | some index => do
      let (branch, v) ← slotGetMutCounted key change depth (branches index)
      return (.tree len own (Function.update branches index branch), v)
termination_by structural node => node

def slotGetMutCounted (key : MerkleKey) (change : V → V) (depth : U16) :
    Option (Node K V) → Option (Option (Node K V) × Option V)
  | none => some (none, none)
  | some node => do
    let (node, v) ← node.getMutCounted key change (← nextDepth depth)
    return (some node, v)
termination_by structural slot => slot
end

mutual
def Node.removeCounted (key : MerkleKey) (depth : U16) :
    Node K V → Option (Node K V × Option (K × V))
  | .leaf values =>
    let (values, v) := LeafContents.remove key values
    some (.leaf values, v)
  | .tree len own branches =>
    match key.getIndexForDepth depth.val with
    | none =>
      match own with
      | some entry =>
        if entry.keyBytes = key then
          some (TreeContents.intoNodeAfterRemoval ⟨len - 1, none, branches⟩, some entry.pair)
        else some (.tree len (some entry) branches, none)
      | none => some (.tree len none branches, none)
    | some index => do
      match ← slotRemoveCounted key depth (branches index) with
      | none => return (.tree len own branches, none)
      | some (branch, v) =>
        let branches :=
          Function.update branches index (if branch.isEmpty then none else some branch)
        if v.isSome then return (TreeContents.intoNodeAfterRemoval ⟨len - 1, own, branches⟩, v)
        else return (.tree len own branches, none)
termination_by structural node => node

def slotRemoveCounted (key : MerkleKey) (depth : U16) :
    Option (Node K V) → Option (Option (Node K V × Option (K × V)))
  | none => some none
  | some node => do return some (← node.removeCounted key (← nextDepth depth))
termination_by structural slot => slot
end

mutual
def Node.findEntryAfterCounted (key : MerkleKey) (depth : U16) :
    Node K V → Option (Option (LeafEntry K V))
  | .leaf values => some (values.find? fun entry => key < entry.keyBytes)
  | .tree _ own branches =>
    let branch := (key.getIndexForDepth depth.val).getD 0
    match own.filter fun entry => key < entry.keyBytes with
    | some entry => some (some entry)
    | none => do
      let found ← slotFindEntryAfterCounted key depth (branches branch)
      return found <|>
        ((List.finRange 16).drop (branch.val + 1)).findSome? fun i => slotFindFirstEntry (branches i)
termination_by structural node => node

def slotFindEntryAfterCounted (key : MerkleKey) (depth : U16) :
    Option (Node K V) → Option (Option (LeafEntry K V))
  | none => some none
  | some node => do node.findEntryAfterCounted key (← nextDepth depth)
termination_by structural slot => slot
end

mutual
def Node.findEntryBeforeCounted (key : MerkleKey) (depth : U16) :
    Node K V → Option (Option (LeafEntry K V))
  | .leaf values => some (values.reverse.find? fun entry => entry.keyBytes < key)
  | .tree _ own branches => do
    let branch := (key.getIndexForDepth depth.val).getD 0
    let found ← slotFindEntryBeforeCounted key depth (branches branch)
    return found <|>
      (((List.finRange 16).take branch.val).reverse.findSome? fun i =>
        slotFindLastEntry (branches i)) <|>
      own.filter fun entry => entry.keyBytes < key
termination_by structural node => node

def slotFindEntryBeforeCounted (key : MerkleKey) (depth : U16) :
    Option (Node K V) → Option (Option (LeafEntry K V))
  | none => some none
  | some node => do node.findEntryBeforeCounted key (← nextDepth depth)
termination_by structural slot => slot
end

/-! ## Shallow nodes -/

/-- A node below which no branch lies deeper than the last level. -/
inductive Node.Shallow : Nat → Node K V → Prop
  | leaf {depth : Nat} {values : List (LeafEntry K V)} : Node.Shallow depth (.leaf values)
  | tree {depth len : Nat} {own : Option (LeafEntry K V)} {branches : Nibble → Option (Node K V)}
    (above : depth < maxDepth)
    (children : ∀ i node, branches i = some node → Node.Shallow (depth + 1) node) :
    Node.Shallow depth (.tree len own branches)

/-- A tree with room on the last level is above it. -/
theorem TreeContents.Valid.length_ne {path : List Nibble} {tree : TreeContents K V}
    (h : tree.Valid path) (large : 16 < tree.len) (hroomy : Roomy (keysOf tree.entries)) :
    path.length ≠ maxDepth := by
  intro hpath
  have hcard := hroomy path hpath
  rw [Finset.filter_true_of_mem, card_keysOf h.sorted, ← h.len_entries] at hcard
  · omega
  · intro key hkey
    obtain ⟨x, hx, rfl⟩ := mem_keysOf.mp hkey
    exact h.begins hx

theorem Node.Valid.shallow {path : List Nibble} {node : Node K V} (h : node.Valid path)
    (hpath : path.length ≤ maxDepth) (hroomy : Roomy (keysOf node.entries)) :
    node.Shallow path.length := by
  induction h using Node.Valid.induct with
  | leaf => exact .leaf
  | tree path tree large h ih =>
    have hlt := lt_of_le_of_ne hpath (h.length_ne large hroomy)
    refine .tree hlt fun i node hnode => ?_
    have hbranch := ih i node hnode (by simp; omega) (hroomy.mono fun key hkey => ?_)
    · rwa [List.length_append, List.length_singleton] at hbranch
    · obtain ⟨x, hx, rfl⟩ := mem_keysOf.mp hkey
      exact mem_keysOf.mpr ⟨x, TreeContents.mem_entries.mpr (.inr ⟨i, hnode ▸ hx⟩), rfl⟩

/-! ## Lookups in shallow nodes -/

section

variable {key : MerkleKey} {depth : U16}

theorem exists_nextDepth (h : depth.val < maxDepth) :
    ∃ next : U16, nextDepth depth = some next ∧ next.val = depth.val + 1 :=
  ⟨⟨depth.val + 1, by rw [maxDepth] at h; omega⟩, dif_pos (by rw [maxDepth] at h; omega), rfl⟩

theorem Node.Shallow.tree_inv {tree : TreeContents K V} {n : Nat} (h : tree.node.Shallow n) :
    n < maxDepth ∧ ∀ i node, tree.branches i = some node → node.Shallow (n + 1) := by
  cases h with
  | tree above children => exact ⟨above, children⟩

theorem Node.Shallow.getCounted {node : Node K V} (h : node.Shallow depth.val) :
    node.getCounted key depth = some (node.get key depth.val) := by
  induction node using Node.induction generalizing depth with
  | leaf values => rfl
  | tree tree ih =>
    obtain ⟨above, children⟩ := h.tree_inv
    obtain ⟨next, hnext, hval⟩ := exists_nextDepth above
    simp only [TreeContents.node, Node.getCounted, Node.get]
    cases hindex : key.getIndexForDepth depth.val with
    | none => rfl
    | some index =>
      simp only
      cases hnode : tree.branches index with
      | none => rfl
      | some node =>
        have hbranch := ih index node hnode (hval ▸ children index node hnode)
        simp only [slotGetCounted, hnext, slotGet, ← hval, Option.bind_eq_bind, Option.bind_some,
          hbranch]

theorem Node.Shallow.getMutCounted {node : Node K V} {change : V → V}
    (h : node.Shallow depth.val) :
    node.getMutCounted key change depth = some (node.getMut key change depth.val) := by
  induction node using Node.induction generalizing depth with
  | leaf values => rfl
  | tree tree ih =>
    obtain ⟨above, children⟩ := h.tree_inv
    obtain ⟨next, hnext, hval⟩ := exists_nextDepth above
    simp only [TreeContents.node, Node.getMutCounted, Node.getMut]
    cases hindex : key.getIndexForDepth depth.val with
    | none => rfl
    | some index =>
      simp only
      cases hnode : tree.branches index with
      | none => rfl
      | some node =>
        have hbranch := ih index node hnode (hval ▸ children index node hnode)
        simp only [slotGetMutCounted, hnext, slotGetMut, ← hval, Option.bind_eq_bind,
          Option.bind_some, hbranch, Option.pure_def]

theorem Node.Shallow.removeCounted {node : Node K V} (h : node.Shallow depth.val) :
    node.removeCounted key depth = some (node.remove key depth.val) := by
  induction node using Node.induction generalizing depth with
  | leaf values => rfl
  | tree tree ih =>
    obtain ⟨above, children⟩ := h.tree_inv
    obtain ⟨next, hnext, hval⟩ := exists_nextDepth above
    simp only [TreeContents.node, Node.removeCounted, Node.remove]
    cases hindex : key.getIndexForDepth depth.val with
    | none =>
      cases tree.leaf with
      | none => rfl
      | some entry =>
        simp only
        split <;> rfl
    | some index =>
      simp only
      cases hnode : tree.branches index with
      | none => rfl
      | some node =>
        have hbranch := ih index node hnode (hval ▸ children index node hnode)
        simp only [slotRemoveCounted, hnext, slotRemove, ← hval, Option.bind_eq_bind,
          Option.bind_some, hbranch, Option.pure_def]
        split <;> rfl

theorem Node.Shallow.findEntryAfterCounted {node : Node K V} (h : node.Shallow depth.val) :
    node.findEntryAfterCounted key depth = some (node.findEntryAfter key depth.val) := by
  induction node using Node.induction generalizing depth with
  | leaf values => rfl
  | tree tree ih =>
    obtain ⟨above, children⟩ := h.tree_inv
    obtain ⟨next, hnext, hval⟩ := exists_nextDepth above
    simp only [TreeContents.node, Node.findEntryAfterCounted, Node.findEntryAfter]
    cases hown : tree.leaf.filter fun entry => key < entry.keyBytes with
    | some entry => rfl
    | none =>
      simp only
      cases hnode : tree.branches ((key.getIndexForDepth depth.val).getD 0) with
      | none => rfl
      | some node =>
        have hbranch := ih _ node hnode (hval ▸ children _ node hnode)
        simp only [slotFindEntryAfterCounted, hnext, slotFindEntryAfter, ← hval,
          Option.bind_eq_bind, Option.bind_some, hbranch, Option.pure_def]
        rfl

theorem Node.Shallow.findEntryBeforeCounted {node : Node K V} (h : node.Shallow depth.val) :
    node.findEntryBeforeCounted key depth = some (node.findEntryBefore key depth.val) := by
  induction node using Node.induction generalizing depth with
  | leaf values => rfl
  | tree tree ih =>
    obtain ⟨above, children⟩ := h.tree_inv
    obtain ⟨next, hnext, hval⟩ := exists_nextDepth above
    simp only [TreeContents.node, Node.findEntryBeforeCounted, Node.findEntryBefore]
    cases hnode : tree.branches ((key.getIndexForDepth depth.val).getD 0) with
    | none => rfl
    | some node =>
      have hbranch := ih _ node hnode (hval ▸ children _ node hnode)
      simp only [slotFindEntryBeforeCounted, hnext, slotFindEntryBefore, ← hval,
        Option.bind_eq_bind, Option.bind_some, hbranch, Option.pure_def]

end

/-- No lookup in the tree loses count of its depth. -/
structure Node.Counts (node : Node K V) : Prop where
  get : ∀ key, node.getCounted key 0 = some (node.get key 0)
  getMut : ∀ key change, node.getMutCounted key change 0 = some (node.getMut key change 0)
  remove : ∀ key, node.removeCounted key 0 = some (node.remove key 0)
  findEntryAfter : ∀ key,
    node.findEntryAfterCounted key 0 = some (node.findEntryAfter key 0)
  findEntryBefore : ∀ key,
    node.findEntryBeforeCounted key 0 = some (node.findEntryBefore key 0)

theorem Node.Valid.counts {node : Node K V} (h : node.Valid [])
    (hroomy : Roomy (keysOf node.entries)) : node.Counts := by
  have hshallow : node.Shallow (0 : U16).val := h.shallow (Nat.zero_le _) hroomy
  exact ⟨fun _ => hshallow.getCounted, fun _ _ => hshallow.getMutCounted,
    fun _ => hshallow.removeCounted, fun _ => hshallow.findEntryAfterCounted,
    fun _ => hshallow.findEntryBeforeCounted⟩

end Kolme.Merkle
