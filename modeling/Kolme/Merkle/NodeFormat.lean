import Kolme.Merkle.Formats
import Kolme.Merkle.Invariant
import Kolme.Merkle.Map

/-!
# The format of the Merkle map

A leaf starts with the byte 42 and holds its entries, a tree starts with the byte 43 and refers to
its sixteen branches by hash. An empty branch is referred to as an empty leaf.
-/

namespace Kolme.Merkle

open Exec MerkleDeserializer MerkleSerializer

/-- Values which can be parsed back from a rendered Merkle key. -/
class FromMerkleKey (K : Type) where
  fromMerkleKey : Bytes → Except MerkleSerialError K

variable {K V : Type}

/-! ## Serializing -/

section

variable [MerkleSerializeRaw V]

instance : MerkleSerializeRaw (LeafEntry K V) :=
  ⟨fun entry => storeSlice entry.keyBytes.bytes ++ store entry.value⟩

def LeafContents.merkleSerialize (values : List (LeafEntry K V)) : MerkleSerializer :=
  storeByte 42 ++ storeUsize values.length ++ storeAll store values

def emptyBranchSerialize : MerkleSerializer := storeByte 42 ++ storeUsize 0

def storeLeaf : Option (LeafEntry K V) → MerkleSerializer
  | some leaf => storeByte 1 ++ store leaf
  | none => storeByte 0

variable [Sha256]

mutual
def Node.merkleSerialize : Node K V → MerkleSerializer
  | .leaf values => LeafContents.merkleSerialize values
  | .tree len leaf branches =>
    storeByte 43 ++ storeUsize len ++ storeLeaf leaf ++
      storeAll (fun i => slotSerialize (branches i)) (List.finRange 16)
termination_by structural node => node

def slotSerialize : Option (Node K V) → MerkleSerializer
  | none => storeByHash emptyBranchSerialize
  | some node => storeByHash node.merkleSerialize
termination_by structural slot => slot
end

instance : MerkleSerializeRaw (MerkleMap K V) := ⟨fun map => map.node.merkleSerialize⟩

end

/-! ## Deserializing -/

section

variable [FromMerkleKey K] [MerkleDeserializeRaw V]

instance : MerkleDeserializeRaw (LeafEntry K V) :=
  ⟨do
    let bytes ← loadBytes
    let key ← lift (FromMerkleKey.fromMerkleKey bytes)
    let value ← load
    return ⟨⟨bytes⟩, key, value⟩⟩

/-- Take the byte that tells trees from leaves. -/
def popMagicByte (expected : UInt8) : Load Unit := do
  let magicByte ← popByte
  ensure (magicByte = expected) (.unexpectedMagicByte magicByte)

def LeafContents.merkleDeserialize : Load (List (LeafEntry K V)) := do
  popMagicByte 42
  let len ← loadUsize
  ensure (len ≤ 16) (.leafContentLimitExceeded 16 len)
  loadMany load len

/-- Whether a branch is empty. A tree that says it has no entries fails an assertion. -/
def Node.checkEmpty : Node K V → Load Bool
  | .leaf values => pure values.isEmpty
  | .tree len _ _ => do
    ensure (len ≠ 0) .panic
    return false

/-- The branches of a tree, one after another. -/
def TreeContents.loadBranches (loadBranch : Load (Node K V)) :
    List Nibble → (Nibble → Option (Node K V)) → Load (Nibble → Option (Node K V))
  | [], branches => pure branches
  | i :: is, branches => do
    let node ← loadBranch
    let empty ← node.checkEmpty
    loadBranches loadBranch is (if empty then branches else Function.update branches i (some node))

def TreeContents.loadLeaf : Load (Option (LeafEntry K V)) := do
  let byte ← popByte
  if byte = 0 then return none
  else if byte = 1 then return some (← load)
  else throw (.invalidTreeStart byte)

def TreeContents.merkleDeserialize (loadBranch : Load (Node K V)) : Load (TreeContents K V) := do
  popMagicByte 43
  let len ← loadUsize
  let leaf ← TreeContents.loadLeaf
  let branches ← TreeContents.loadBranches loadBranch (List.finRange 16) fun _ => none
  return ⟨len, leaf, branches⟩

variable [Sha256]

/-- A node of at most the given number of levels. -/
def Node.merkleDeserialize : ℕ → Load (Node K V)
  | 0 => throw (.other "out of levels")
  | levels + 1 => do
    let byte ← peekByte
    if byte = 42 then return .leaf (← LeafContents.merkleDeserialize)
    else if byte = 43 then
      let tree ← TreeContents.merkleDeserialize
        (loadHash >>= loadByGivenHash (Node.merkleDeserialize levels))
      return tree.node
    else throw (.unexpectedMagicByte byte)

/-- The contents say how many levels there can be. -/
instance : MerkleDeserializeRaw (MerkleMap K V) :=
  ⟨do
    let d ← get
    let node ← Node.merkleDeserialize d.contents.levels
    return ⟨node⟩⟩

end

/-! ## Nodes are read as they were written -/

section Lawful

variable [Sha256] [MerkleSerializeRaw V] [FromMerkleKey K] [MerkleDeserializeRaw V]
  [LawfulMerkle V]

instance : LawfulMerkle (LeafEntry K V) where
  Fits entry := FromMerkleKey.fromMerkleKey entry.keyBytes.bytes = .ok entry.key ∧ Fits entry.value
  reads {entry} hfits := (Reads.loadBytes entry.keyBytes.bytes).bind (by
    rw [hfits.1]
    exact (LawfulMerkle.reads hfits.2).map rfl)

variable {values : List (LeafEntry K V)} {leaf : Option (LeafEntry K V)} {node : Node K V}
  {branches : Nibble → Option (Node K V)} {path : List Nibble}

omit [MerkleSerializeRaw V] [FromMerkleKey K] [MerkleDeserializeRaw V] [LawfulMerkle V] in
theorem Reads.popMagicByte (byte : UInt8) : Reads (popMagicByte byte) (storeByte byte) () :=
  (Reads.popByte byte).map (by simp [ensure, Except.ensure]; rfl)

theorem Reads.loadLeafContents (full : values.length ≤ 16) (hfits : ∀ entry ∈ values, Fits entry) :
    Reads LeafContents.merkleDeserialize (LeafContents.merkleSerialize values) values := by
  rw [LeafContents.merkleSerialize, append_assoc]
  refine (Reads.popMagicByte 42).bind ((Reads.loadUsize (full.trans_lt (by decide))).bind ?_)
  simp only [ensure, Except.ensure_of full]
  exact .loadMany_store hfits

theorem Reads.loadLeaf (hfits : ∀ entry, leaf = some entry → Fits entry) :
    Reads TreeContents.loadLeaf (storeLeaf leaf) leaf := by
  cases leaf with
  | none => exact (Reads.popByte 0).map rfl
  | some entry => exact (Reads.popByte 1).bind ((LawfulMerkle.reads (hfits entry rfl)).map rfl)

omit [MerkleSerializeRaw V] [FromMerkleKey K] [MerkleDeserializeRaw V] [LawfulMerkle V] in
theorem Reads.checkEmpty (hlen : node.isEmpty = false → node.len ≠ 0) :
    Reads node.checkEmpty new node.isEmpty := by
  cases node with
  | leaf values => exact .pure _
  | tree len leaf branches =>
    have hlen : len ≠ 0 := hlen rfl
    simp only [Node.checkEmpty, ensure, Except.ensure_of hlen]
    exact .pure _

omit [FromMerkleKey K] [MerkleDeserializeRaw V] [LawfulMerkle V] in
/-- The branches are read one after another. Those that are not there are read as empty leaves. -/
theorem Reads.loadBranches {x : Load (Node K V)} {is : List Nibble}
    {start : Nibble → Option (Node K V)}
    (hx : ∀ i, Reads x (slotSerialize (branches i)) ((branches i).getD .default))
    (hbranches : ∀ i node, branches i = some node → node.isEmpty = false ∧ node.len ≠ 0)
    (nodup : is.Nodup) (hstart : ∀ i ∈ is, start i = none) :
    Reads (TreeContents.loadBranches x is start)
      (storeAll (fun i => slotSerialize (branches i)) is)
      (fun i => if i ∈ is then branches i else start i) := by
  induction is generalizing start with
  | nil => exact .pure _
  | cons i is ih =>
    rw [List.nodup_cons] at nodup
    rw [List.forall_mem_cons] at hstart
    have hempty : Reads ((branches i).getD .default).checkEmpty new
        ((branches i).getD .default).isEmpty := by
      cases hbranch : branches i with
      | none => exact .pure _
      | some node => exact .checkEmpty fun _ => (hbranches i node hbranch).2
    have hrest : ∀ j ∈ is, (if ((branches i).getD .default).isEmpty = true then start
        else Function.update start i (some ((branches i).getD .default))) j = none := by
      intro j hj
      have hne : j ≠ i := fun h => nodup.1 (h ▸ hj)
      split
      · exact hstart.2 j hj
      · rw [Function.update_of_ne hne, hstart.2 j hj]
    have hread : Reads (TreeContents.loadBranches x (i :: is) start) _ _ :=
      (hx i).bind (hempty.bind (ih nodup.2 hrest))
    rw [new_append] at hread
    refine hread.of_eq (funext fun j => ?_)
    by_cases hj : j = i
    · subst hj
      cases hbranch : branches j with
      | none => simp [nodup.1, Node.isEmpty, Node.default, hstart.1]
      | some node => simp [nodup.1, (hbranches j node hbranch).1]
    · by_cases hmem : j ∈ is
      · simp [hj, hmem]
      · simp only [List.mem_cons, hj, hmem, or_self, if_false]
        split
        · rfl
        · rw [Function.update_of_ne hj]

omit [MerkleSerializeRaw V] [FromMerkleKey K] [MerkleDeserializeRaw V] [LawfulMerkle V] in
theorem Reads.peekByte {α : Type} {f : UInt8 → Load α} {out : MerkleSerializer} {a : α}
    {byte : UInt8} {bytes : Bytes} (hbuff : out.buff = byte :: bytes) (hf : Reads (f byte) out a) :
    Reads (MerkleDeserializer.peekByte >>= f) out a := by
  intro d hat
  obtain ⟨tail, htail⟩ := hat.bytes
  have hpeek : MerkleDeserializer.peekByte d = (.ok byte, d) := by
    rw [MerkleDeserializer.peekByte, get_bind, ← htail, hbuff]
    rfl
  rw [bind_of_ok hpeek]
  exact hf d hat

omit [Sha256] [MerkleSerializeRaw V] [FromMerkleKey K] [MerkleDeserializeRaw V] [LawfulMerkle V] in
theorem mem_children_storeAll {α : Type} {f : α → MerkleSerializer} {as : List α}
    {child : MerkleContents} :
    child ∈ (storeAll f as).children ↔ ∃ a ∈ as, child ∈ (f a).children := by
  induction as with
  | nil => simp [storeAll]
  | cons a as ih => simp [storeAll, ih]

omit [Sha256] [MerkleSerializeRaw V] [FromMerkleKey K] [MerkleDeserializeRaw V] [LawfulMerkle V] in
theorem Node.Valid.len_ne_zero (h : node.Valid path) (hnonempty : node.isEmpty = false) :
    node.len ≠ 0 := by
  cases h with
  | leaf full sorted below =>
    simpa [Node.isEmpty, List.isEmpty_eq_false_iff, Node.len] using hnonempty
  | tree large count ends children nonempty => exact Nat.ne_of_gt (Nat.zero_lt_of_lt large)

omit [Sha256] [MerkleSerializeRaw V] [FromMerkleKey K] [MerkleDeserializeRaw V] [LawfulMerkle V] in
theorem TreeContents.Valid.branch_len_le {tree : TreeContents K V} (h : tree.Valid path)
    {i : Nibble} (hbranch : tree.branches i = some node) : node.len ≤ tree.len := by
  have hle : slotLen (tree.branches i) ≤ ∑ i, slotLen (tree.branches i) :=
    Finset.single_le_sum (f := fun i => slotLen (tree.branches i)) (fun _ _ => Nat.zero_le _)
      (Finset.mem_univ i)
  rw [hbranch, slotLen] at hle
  rw [h.count, childrenLen]
  exact hle.trans (Nat.le_add_left _ _)

omit [FromMerkleKey K] [MerkleDeserializeRaw V] [LawfulMerkle V] in
/-- A branch has fewer levels than the tree. -/
theorem levels_branch_lt (tree : TreeContents K V) {i : Nibble} {child : MerkleContents}
    (hchild : child ∈ (slotSerialize (tree.branches i)).children) :
    child.levels < tree.node.merkleSerialize.finish.levels := by
  refine MerkleContents.levels_lt_of_mem ?_
  change child ∈ (_ ++ storeAll _ _).children
  rw [children_append, List.mem_append, mem_children_storeAll]
  exact .inr ⟨i, List.mem_finRange i, hchild⟩

theorem Reads.loadLeafNode (full : values.length ≤ 16) (hfits : ∀ entry ∈ values, Fits entry)
    {levels : ℕ} (hlevels : 0 < levels) :
    Reads (Node.merkleDeserialize levels) (LeafContents.merkleSerialize values) (.leaf values) := by
  obtain ⟨levels, rfl⟩ := Nat.exists_eq_succ_of_ne_zero hlevels.ne'
  exact .peekByte rfl ((Reads.loadLeafContents full hfits).map rfl)

theorem Reads.loadEmptyBranch {levels : ℕ} (hlevels : 0 < levels) :
    Reads (Node.merkleDeserialize levels) emptyBranchSerialize (.default : Node K V) := by
  have hempty : Reads (Node.merkleDeserialize levels) (LeafContents.merkleSerialize [])
      (.leaf [] : Node K V) := .loadLeafNode (Nat.zero_le _) (List.forall_mem_nil _) hlevels
  rwa [LeafContents.merkleSerialize, storeAll, append_new] at hempty

/-- A tree is read if its branches are. -/
theorem Reads.loadTreeContents {tree : TreeContents K V} {x : Load (Node K V)}
    (hvalid : tree.Valid path) (hfits : ∀ entry ∈ tree.entries, Fits entry)
    (hlen : tree.len < usizeLimit)
    (hx : ∀ i, Reads x (slotSerialize (tree.branches i)) ((tree.branches i).getD .default)) :
    Reads (TreeContents.merkleDeserialize x) tree.node.merkleSerialize tree := by
  have hbranches : Reads (TreeContents.loadBranches x (List.finRange 16) fun _ => none)
      (storeAll (fun i => slotSerialize (tree.branches i)) (List.finRange 16)) tree.branches := by
    have hnonempty : ∀ i node, tree.branches i = some node →
        node.isEmpty = false ∧ node.len ≠ 0 := fun i node hbranch =>
      ⟨hvalid.nonempty i node hbranch,
        (hvalid.children i node hbranch).len_ne_zero (hvalid.nonempty i node hbranch)⟩
    refine (Reads.loadBranches hx hnonempty (List.nodup_finRange 16) fun _ _ => rfl).of_eq ?_
    funext i
    exact if_pos (List.mem_finRange i)
  have hleaf : Reads TreeContents.loadLeaf (storeLeaf tree.leaf) tree.leaf :=
    .loadLeaf fun entry hleaf => hfits entry (TreeContents.mem_entries.mpr (.inl hleaf))
  change Reads _ (storeByte 43 ++ storeUsize tree.len ++ storeLeaf tree.leaf ++ storeAll _ _) _
  rw [append_assoc, append_assoc]
  exact (Reads.popMagicByte 43).bind ((Reads.loadUsize hlen).bind (hleaf.bind (hbranches.map rfl)))

/-- A valid node is read as it was written. -/
theorem Node.Valid.reads (h : node.Valid path) (hfits : ∀ entry ∈ node.entries, Fits entry)
    (hlen : node.len < usizeLimit) {levels : ℕ}
    (hlevels : node.merkleSerialize.finish.levels ≤ levels) :
    Reads (Node.merkleDeserialize levels) node.merkleSerialize node := by
  induction h using Node.Valid.induct generalizing levels with
  | leaf path values full sorted below =>
    exact .loadLeafNode full hfits ((MerkleContents.levels_pos _).trans_le hlevels)
  | tree path tree large h ih =>
    obtain ⟨levels, rfl⟩ := Nat.exists_eq_succ_of_ne_zero
      (Nat.ne_of_gt ((MerkleContents.levels_pos _).trans_le hlevels))
    have hbranch : ∀ i, Reads (loadHash >>= loadByGivenHash (Node.merkleDeserialize levels))
        (slotSerialize (tree.branches i)) ((tree.branches i).getD .default) := by
      intro i
      have hbelow : ∀ child ∈ (slotSerialize (tree.branches i)).children, child.levels ≤ levels :=
        fun child hchild => Nat.le_of_lt_succ ((levels_branch_lt tree hchild).trans_le hlevels)
      cases hslot : tree.branches i with
      | none =>
        rw [hslot] at hbelow
        have hpos := (MerkleContents.levels_pos _).trans_le (hbelow _ (List.mem_singleton_self _))
        exact .loadByHash (.loadEmptyBranch hpos)
      | some node =>
        rw [hslot] at hbelow
        refine .loadByHash (ih i node hslot (fun entry hentry => ?_) ?_
          (hbelow _ (List.mem_singleton_self _)))
        · refine hfits entry (TreeContents.mem_entries.mpr (.inr ⟨i, ?_⟩))
          rwa [hslot]
        · exact (h.branch_len_le hslot).trans_lt hlen
    exact .peekByte rfl ((Reads.loadTreeContents h hfits hlen hbranch).map rfl)

instance : LawfulMerkle (MerkleMap K V) where
  Fits map := map.node.Valid [] ∧ map.len < usizeLimit ∧ ∀ entry ∈ map.node.entries, Fits entry
  reads {map} hfits := by
    intro d hat
    have hlevels : map.node.merkleSerialize.finish.levels ≤ d.contents.levels := by
      obtain ⟨levels, hlevels⟩ := Nat.exists_eq_succ_of_ne_zero d.contents.levels_pos.ne'
      rw [hlevels]
      refine MerkleContents.levels_le_succ fun child hchild => Nat.le_of_lt_succ ?_
      have hmem := List.mem_of_find?_eq_some (hat.children child hchild).1
      exact (MerkleContents.levels_lt_of_mem hmem).trans_eq hlevels
    have hnode := hfits.1.reads hfits.2.2 hfits.2.1 hlevels
    have hmap : Reads (do return ⟨← Node.merkleDeserialize d.contents.levels⟩) _ map := hnode.map rfl
    exact hmap d hat

end Lawful

end Kolme.Merkle
