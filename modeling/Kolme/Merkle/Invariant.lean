import Kolme.Merkle.Node
import Mathlib.Algebra.BigOperators.Fin

/-!
# The representation invariant of the Merkle map

A node below a path holds entries whose keys begin with the path. A leaf has at most sixteen of
them in order, a tree has more and sends each to the branch of its next nibble. The entries of such
a node are in order.
-/

namespace Kolme.Merkle

variable {K V : Type} {path : List Nibble} {entry : LeafEntry K V}

/-- The order of entries. -/
def LeafEntry.Before (a b : LeafEntry K V) : Prop := a.keyBytes < b.keyBytes

def slotLen : Option (Node K V) → Nat
  | none => 0
  | some node => node.len

/-- The entries of a tree: its own, which is the one whose key ends here, and the ones below. -/
def childrenLen (own : Option (LeafEntry K V)) (branches : Nibble → Option (Node K V)) : Nat :=
  own.toList.length + ∑ i, slotLen (branches i)

inductive Node.Valid : List Nibble → Node K V → Prop
  | leaf {path : List Nibble} {values : List (LeafEntry K V)} (full : values.length ≤ 16)
    (sorted : values.Pairwise LeafEntry.Before)
    (below : ∀ entry ∈ values, path <+: entry.keyBytes.nibbles) : Node.Valid path (.leaf values)
  | tree {path : List Nibble} {len : Nat} {own : Option (LeafEntry K V)}
    {branches : Nibble → Option (Node K V)} (large : 16 < len)
    (count : len = childrenLen own branches)
    (ends : ∀ entry, own = some entry → entry.keyBytes.nibbles = path)
    (children : ∀ i node, branches i = some node → Node.Valid (path ++ [i]) node)
    (nonempty : ∀ i node, branches i = some node → node.isEmpty = false) :
    Node.Valid path (.tree len own branches)

/-- The invariant of a tree that may be too small. -/
structure TreeContents.Valid (path : List Nibble) (tree : TreeContents K V) : Prop where
  count : tree.len = childrenLen tree.leaf tree.branches
  ends : ∀ entry, tree.leaf = some entry → entry.keyBytes.nibbles = path
  children : ∀ i node, tree.branches i = some node → node.Valid (path ++ [i])
  nonempty : ∀ i node, tree.branches i = some node → node.isEmpty = false

theorem Node.valid_tree {tree : TreeContents K V} :
    tree.node.Valid path ↔ 16 < tree.len ∧ tree.Valid path := by
  constructor
  · rintro (_ | ⟨large, count, ends, children, nonempty⟩)
    exact ⟨large, count, ends, children, nonempty⟩
  · rintro ⟨large, h⟩
    exact .tree large h.count h.ends h.children h.nonempty

theorem Node.valid_default : (Node.default : Node K V).Valid path :=
  .leaf (Nat.zero_le _) .nil (fun _ h => nomatch h)

theorem TreeContents.valid_new : (TreeContents.new : TreeContents K V).Valid path where
  count := by simp [TreeContents.new, childrenLen, slotLen]
  ends _ h := nomatch h
  children _ _ h := nomatch h
  nonempty _ _ h := nomatch h

/-! ## Entries -/

@[simp] theorem Node.entries_leaf (values : List (LeafEntry K V)) :
    (Node.leaf values).entries = values := rfl

@[simp] theorem slotEntries_none : slotEntries (none : Option (Node K V)) = [] := rfl

@[simp] theorem slotEntries_some (node : Node K V) : slotEntries (some node) = node.entries := rfl

theorem TreeContents.entries_eq (tree : TreeContents K V) :
    tree.entries = tree.leaf.toList ++
      (List.finRange 16).flatMap fun i => slotEntries (tree.branches i) := rfl

@[simp] theorem TreeContents.entries_new : (TreeContents.new : TreeContents K V).entries = [] := by
  simp [TreeContents.entries_eq, TreeContents.new]

theorem TreeContents.mem_entries {tree : TreeContents K V} :
    entry ∈ tree.entries ↔
      tree.leaf = some entry ∨ ∃ i, entry ∈ slotEntries (tree.branches i) := by
  simp [TreeContents.entries_eq]

theorem mem_slotEntries {slot : Option (Node K V)} :
    entry ∈ slotEntries slot ↔ ∃ node, slot = some node ∧ entry ∈ node.entries := by
  cases slot <;> simp

namespace Node.Valid

@[elab_as_elim] theorem induct {P : ∀ path (node : Node K V), node.Valid path → Prop}
    (leaf : ∀ path values full sorted below, P path (.leaf values) (.leaf full sorted below))
    (tree : ∀ path (tree : TreeContents K V) (large : 16 < tree.len) (h : tree.Valid path),
      (∀ i node (hnode : tree.branches i = some node),
        P (path ++ [i]) node (h.children i node hnode)) →
      P path tree.node (Node.valid_tree.mpr ⟨large, h⟩))
    {path : List Nibble} {node : Node K V} (h : node.Valid path) : P path node h := by
  induction h with
  | leaf full sorted below => exact leaf _ _ full sorted below
  | @tree path len own branches large count ends children nonempty ih =>
    exact tree path ⟨len, own, branches⟩ large ⟨count, ends, children, nonempty⟩ ih

/-- Every key begins with the path of its node. -/
theorem begins {node : Node K V} (h : node.Valid path) :
    ∀ entry ∈ node.entries, path <+: entry.keyBytes.nibbles := by
  induction h using Node.Valid.induct with
  | leaf path values full sorted below => exact below
  | tree path tree large h ih =>
    intro entry hmem
    rcases TreeContents.mem_entries.mp hmem with hown | ⟨i, hi⟩
    · rw [h.ends entry hown]
    · obtain ⟨node, hnode, hmem⟩ := mem_slotEntries.mp hi
      exact (List.prefix_append path [i]).trans (ih i node hnode entry hmem)

end Node.Valid

/-! ## Branches -/

/-- A key goes on in one branch only. -/
theorem branch_unique {nibbles : List Nibble} {i j : Nibble} (hi : path ++ [i] <+: nibbles)
    (hj : path ++ [j] <+: nibbles) : i = j := by
  have hlength : (path ++ [i]).length = (path ++ [j]).length := by simp
  have hpath := (List.prefix_of_prefix_length_le hi hj hlength.le).eq_of_length hlength
  simpa using hpath

/-- A key that ends at the path does not go on. -/
theorem not_branch_of_end {nibbles : List Nibble} (h : nibbles = path) (i : Nibble) :
    ¬path ++ [i] <+: nibbles := by
  intro hi
  have := hi.length_le
  rw [h] at this
  simp at this

namespace TreeContents.Valid

variable {tree : TreeContents K V} {i : Nibble}

theorem begins_slot (h : tree.Valid path) (hmem : entry ∈ slotEntries (tree.branches i)) :
    path ++ [i] <+: entry.keyBytes.nibbles := by
  obtain ⟨node, hnode, hmem⟩ := mem_slotEntries.mp hmem
  exact (h.children i node hnode).begins entry hmem

theorem begins (h : tree.Valid path) (hmem : entry ∈ tree.entries) :
    path <+: entry.keyBytes.nibbles := by
  rcases mem_entries.mp hmem with hown | ⟨i, hi⟩
  · rw [h.ends entry hown]
  · exact (List.prefix_append path [i]).trans (h.begins_slot hi)

/-- The next nibble of a key says where its entry is. -/
theorem mem_slot (h : tree.Valid path) (hi : path ++ [i] <+: entry.keyBytes.nibbles) :
    entry ∈ tree.entries ↔ entry ∈ slotEntries (tree.branches i) := by
  refine ⟨fun hmem => ?_, fun hmem => mem_entries.mpr (.inr ⟨i, hmem⟩)⟩
  rcases mem_entries.mp hmem with hown | ⟨j, hj⟩
  · exact absurd hi (not_branch_of_end (h.ends entry hown) i)
  · obtain rfl := branch_unique hi (h.begins_slot hj)
    exact hj

theorem mem_own (h : tree.Valid path) (hpath : entry.keyBytes.nibbles = path) :
    entry ∈ tree.entries ↔ tree.leaf = some entry := by
  refine ⟨fun hmem => ?_, fun hown => mem_entries.mpr (.inl hown)⟩
  rcases mem_entries.mp hmem with hown | ⟨i, hi⟩
  · exact hown
  · exact absurd (h.begins_slot hi) (not_branch_of_end hpath i)

end TreeContents.Valid

/-! ## Order -/

theorem nibbles_lt_of_branch {a b : MerkleKey} {i j : Nibble} (ha : path ++ [i] <+: a.nibbles)
    (hb : path ++ [j] <+: b.nibbles) (hij : i < j) : a < b := by
  rw [MerkleKey.lt_iff_nibbles]
  obtain ⟨as, ha⟩ := ha
  obtain ⟨bs, hb⟩ := hb
  rw [← ha, ← hb, List.append_assoc, List.append_assoc]
  exact List.append_left_lt (List.cons_lt_cons_iff.mpr (.inl hij))

theorem nibbles_lt_of_end {a b : MerkleKey} {j : Nibble} (ha : a.nibbles = path)
    (hb : path ++ [j] <+: b.nibbles) : a < b := by
  rw [MerkleKey.lt_iff_nibbles]
  obtain ⟨bs, hb⟩ := hb
  rw [← hb, ha, List.append_assoc]
  nth_rewrite 1 [← List.append_nil path]
  exact List.append_left_lt (List.nil_lt_cons _ _)

theorem TreeContents.Valid.sorted_of_slots {tree : TreeContents K V} (h : tree.Valid path)
    (hslots : ∀ i, (slotEntries (tree.branches i)).Pairwise LeafEntry.Before) :
    tree.entries.Pairwise LeafEntry.Before := by
  rw [TreeContents.entries_eq, List.pairwise_append, List.pairwise_flatMap]
  refine ⟨?_, ⟨fun i _ => hslots i, ?_⟩, ?_⟩
  · cases tree.leaf <;> simp
  · exact (List.pairwise_lt_finRange 16).imp fun hij a ha b hb =>
      nibbles_lt_of_branch (h.begins_slot ha) (h.begins_slot hb) hij
  · intro a ha b hb
    obtain ⟨j, -, hb⟩ := List.mem_flatMap.mp hb
    exact nibbles_lt_of_end (h.ends a (by simpa using ha)) (h.begins_slot hb)

/-- The entries of a node are in strictly increasing order. -/
theorem Node.Valid.sorted {node : Node K V} (h : node.Valid path) :
    node.entries.Pairwise LeafEntry.Before := by
  induction h using Node.Valid.induct with
  | leaf path values full sorted below => exact sorted
  | tree path tree large h ih =>
    refine h.sorted_of_slots fun i => ?_
    cases hslot : tree.branches i with
    | none => exact .nil
    | some node => exact ih i node hslot

/-! ## Sizes -/

theorem TreeContents.Valid.len_of_slots {tree : TreeContents K V} (h : tree.Valid path)
    (hslots : ∀ i, slotLen (tree.branches i) = (slotEntries (tree.branches i)).length) :
    tree.len = tree.entries.length := by
  rw [h.count, childrenLen, TreeContents.entries_eq, List.length_append, List.length_flatMap]
  have hsum : ∑ i, slotLen (tree.branches i) =
      ((List.finRange 16).map fun i => (slotEntries (tree.branches i)).length).sum := by
    rw [← List.ofFn_eq_map, List.sum_ofFn]
    exact Finset.sum_congr rfl fun i _ => hslots i
  rw [hsum]

theorem Node.Valid.len_eq {node : Node K V} (h : node.Valid path) :
    node.len = node.entries.length := by
  induction h using Node.Valid.induct with
  | leaf path values full sorted below => rfl
  | tree path tree large h ih =>
    refine h.len_of_slots fun i => ?_
    cases hslot : tree.branches i with
    | none => rfl
    | some node => exact ih i node hslot

theorem TreeContents.Valid.slotLen_eq {tree : TreeContents K V} (h : tree.Valid path) (i : Nibble) :
    slotLen (tree.branches i) = (slotEntries (tree.branches i)).length := by
  cases hslot : tree.branches i with
  | none => rfl
  | some node => exact (h.children i node hslot).len_eq

theorem TreeContents.Valid.len_entries {tree : TreeContents K V} (h : tree.Valid path) :
    tree.len = tree.entries.length :=
  h.len_of_slots h.slotLen_eq

theorem TreeContents.Valid.sorted {tree : TreeContents K V} (h : tree.Valid path) :
    tree.entries.Pairwise LeafEntry.Before := by
  refine h.sorted_of_slots fun i => ?_
  cases hslot : tree.branches i with
  | none => exact .nil
  | some node => exact (h.children i node hslot).sorted

end Kolme.Merkle
