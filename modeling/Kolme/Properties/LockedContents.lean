import Kolme.Merkle.Lockable
import Kolme.Properties.MerkleMaps

/-!
# Locked contents are right

Maps share cells with their clones, and a map that is changed in place may go on using a cell that
is not set. As long as only maps are cloned whose contents are locked, a cell that is not set
belongs to one node of one map. Then serializing a map gives what serializing it without any cell
would give, whatever was done to it and to its clones before.
-/

namespace Kolme.Merkle

open Exec OnceCells

variable {K V : Type}

@[simp] theorem slotNode_eq (slot : Option (LockableNode K V)) :
    slotNode slot = slot.map LockableNode.node := by
  cases slot <;> rfl

@[simp] theorem LockableTree.node_node (locked : ℕ) (tree : LockableTree K V) :
    (tree.node locked).node = tree.contents.node := rfl

theorem LockableTree.contents_update {len : ℕ} {leaf : Option (LeafEntry K V)}
    {branches : Nibble → Option (LockableNode K V)} {i : Nibble}
    {slot : Option (LockableNode K V)} :
    LockableTree.contents ⟨len, leaf, Function.update branches i slot⟩ =
      ⟨len, leaf, Function.update (fun j => slotNode (branches j)) i (slotNode slot)⟩ := by
  unfold LockableTree.contents
  congr 1
  exact Function.comp_update slotNode branches i slot

/-! ## The nodes in a node -/

namespace LockableNode

/-- The branches of a node are smaller. -/
theorem induction {P : LockableNode K V → Prop}
    (leaf : ∀ locked values, P (.leaf locked values))
    (tree : ∀ locked (tree : LockableTree K V),
      (∀ i node, tree.branches i = some node → P node) → P (tree.node locked))
    (node : LockableNode K V) : P node :=
  LockableNode.rec (motive_1 := P) (motive_2 := fun slot => ∀ node, slot = some node → P node) leaf
    (fun locked len own branches ih => tree locked ⟨len, own, branches⟩ ih) (fun _ h => nomatch h)
    (fun _ ih _ h => Option.some.inj h ▸ ih) node

/-- The node at a path in a node. -/
def within : List Nibble → LockableNode K V → Option (LockableNode K V)
  | [], node => some node
  | _ :: _, leaf _ _ => none
  | i :: path, tree _ _ _ branches => (branches i).bind (LockableNode.within path)

/-- The nodes in the branches of a node. -/
def inside (node : LockableNode K V) (x : Nibble × List Nibble) : Option (LockableNode K V) :=
  node.within (x.1 :: x.2)

theorem within_append {path path' : List Nibble} {node node' last : LockableNode K V}
    (h : node.within path = some node') (h' : node'.within path' = some last) :
    node.within (path ++ path') = some last := by
  induction path generalizing node with
  | nil =>
    obtain rfl := Option.some.inj h
    exact h'
  | cons i path ih =>
    cases node with
    | leaf locked values => cases h
    | tree locked len own branches =>
      obtain ⟨branch, hbranch, h⟩ := Option.bind_eq_some_iff.mp h
      exact Option.bind_eq_some_iff.mpr ⟨branch, hbranch, ih h⟩

end LockableNode

section Contents

variable [MerkleSerializeRaw V] [Sha256]

/-- Nodes with their cells and the contents that belong there. -/
def lockable : Objects (LockableNode K V) (List Nibble) MerkleContents where
  cell := LockableNode.locked
  part node path := node.within path
  value node := node.node.merkleSerialize.finish
  part_part h h' := ⟨_, LockableNode.within_append h h'⟩

/-- The nodes in the branches of a tree. -/
def LockableTree.places (tree : LockableTree K V) (x : Nibble × List Nibble) :
    Option (LockableNode K V) :=
  lockable.places tree.branches x

/-! ## The cells of edited nodes -/

section Roots

variable {s s' s'' : Cells} {ι : Type} {old : ι → Option (LockableNode K V)}
  {node node' : LockableNode K V} {locked : ℕ}

/-- A node whose own cell is not set is edited if its branches are, and its cell is a new one or
that of an old node. No node in its branches has the cell. -/
theorem edits_root (edits : Edits lockable.cell s old s' node.inside)
    (hfree : s.contents node.locked = none)
    (origin : s.next ≤ node.locked ∧ node.locked < s'.next ∨
      ∃ q o, old q = some o ∧ o.locked = node.locked)
    (apart : Below lockable.cell s old → Single lockable.cell s old →
      ∀ {x o}, node.inside x = some o → o.locked ≠ node.locked) :
    Edits lockable.cell s old s' (lockable.part node) where
  contents := edits.contents
  next := edits.next
  filled {p o} h hset := by
    cases p with
    | nil =>
      obtain rfl := Option.some.inj h
      exact absurd hfree (Option.isSome_iff_ne_none.mp hset)
    | cons i path => exact edits.filled (p := (i, path)) h hset
  free {p o} h hunset := by
    cases p with
    | nil =>
      obtain rfl := Option.some.inj h
      exact origin
    | cons i path => exact edits.free (p := (i, path)) h hunset
  single below single {p q o o'} h h' he hunset := by
    have apart := @apart below single
    cases p with
    | nil =>
      obtain rfl := Option.some.inj h
      cases q with
      | nil => rfl
      | cons j path' => exact absurd he.symm (apart (x := (j, path')) h')
    | cons i path =>
      cases q with
      | nil =>
        obtain rfl := Option.some.inj h'
        exact absurd he (apart (x := (i, path)) h)
      | cons j path' =>
        have hplace : (i, path) = (j, path') := edits.single below single h h' he hunset
        obtain ⟨rfl, rfl⟩ := Prod.mk.inj hplace
        rfl

omit [MerkleSerializeRaw V] [Sha256] in
theorem cons_injective : Function.Injective fun x : Nibble × List Nibble => x.1 :: x.2 :=
  fun _ _ h => Prod.ext (List.cons.inj h).1 (List.cons.inj h).2

/-- A node in a cell that was just allocated. -/
theorem edits_alloc (fresh : s.Fresh) (edits : Edits lockable.cell s old s' node.inside)
    (hrun : (alloc : Exec Unit Cells ℕ) s' = (.ok node.locked, s'')) :
    Edits lockable.cell s old s'' (lockable.part node) := by
  obtain ⟨hlocked, rfl⟩ := Prod.mk.inj hrun
  have hlocked : s'.next = node.locked := Except.ok.inj hlocked
  have wider : Edits lockable.cell s old { s' with next := s'.next + 1 } node.inside :=
    edits.trans (.sub id Function.injective_id rfl (Nat.le_succ _) fun h => h)
  refine edits_root wider (fresh (hlocked ▸ edits.next))
    (.inl ⟨hlocked ▸ edits.next, hlocked ▸ Nat.lt_succ_self _⟩) fun below _ x o h => ?_
  have hlt : o.locked < s'.next := edits.below below h
  exact Nat.ne_of_lt (hlocked ▸ hlt)

/-- A node that is changed in place, after the reset of its cell. -/
theorem edits_reset (fresh : s.Fresh)
    (hrun : (reset node.locked : Exec Unit Cells ℕ) s = (.ok node'.locked, s'))
    (edits : Edits lockable.cell s' node.inside s'' node'.inside) :
    Edits lockable.cell s (lockable.part node) s'' (lockable.part node') := by
  rcases reset_cases (ε := Unit) node.locked s with ⟨hfree, h⟩ | h
  all_goals
    obtain ⟨hlocked, rfl⟩ := Prod.mk.inj (h.symm.trans hrun)
    have hlocked := Except.ok.inj hlocked
  · have inner : Edits lockable.cell s (lockable.part node) s node.inside :=
      .sub _ cons_injective rfl le_rfl fun h => h
    refine edits_root (inner.trans edits) (hlocked ▸ hfree) (.inr ⟨[], node, rfl, hlocked⟩)
      fun below single x o h he => ?_
    have he : lockable.cell o = node.locked := he.trans hlocked.symm
    -- A node with the old cell would have been in the old branches, next to the old root.
    rcases edits.free h (he ▸ hfree) with ⟨hle, -⟩ | ⟨r, o', hr, he'⟩
    · have hlt : node.locked < s.next := below (p := []) (o := node) rfl
      exact absurd hlt (Nat.not_lt.mpr (he ▸ hle))
    · have hplace : ([] : List Nibble) = r.1 :: r.2 :=
        single (p := []) (q := r.1 :: r.2) (o := node) rfl hr (he'.trans he).symm hfree
      cases hplace
  · have inner : Edits lockable.cell s (lockable.part node) { s with next := s.next + 1 }
        node.inside := .sub _ cons_injective rfl (Nat.le_succ _) fun h => h
    refine edits_root (inner.trans edits) (fresh hlocked.le)
      (.inl ⟨hlocked.le, hlocked ▸ edits.next⟩) fun below _ x o h he => ?_
    have he : lockable.cell o = s.next := he.trans hlocked.symm
    rcases edits.free h (fresh he.ge) with ⟨hle, -⟩ | ⟨r, o', hr, he'⟩
    · exact absurd (he ▸ hle) (Nat.not_succ_le_self _)
    · have hlt : lockable.cell o' < s.next := below (p := r.1 :: r.2) hr
      exact absurd (he'.trans he) hlt.ne

end Roots

/-! ## The operations edit a map as the operations without cells do -/

section Operations

variable {s : Cells} {ι : Type} {old : ι → Option (LockableNode K V)} {key : MerkleKey}
  {entry : LeafEntry K V}

/-- A program that ends with a node and a value. -/
abbrev TracksNode {β : Type} (x : Exec Unit Cells (LockableNode K V × β))
    (plain : Option (Node K V × β)) (s : Cells) (old : ι → Option (LockableNode K V)) : Prop :=
  Tracks lockable.cell x plain (fun r => (r.1.node, r.2)) s old fun r => lockable.part r.1

theorem tracks_lockLeaf (values : List (LeafEntry K V)) (fresh : s.Fresh) :
    Tracks lockable.cell (LockableNode.lockLeaf values) (some (.leaf values)) LockableNode.node s
      old lockable.part where
  ok h := by
    obtain ⟨locked, s₁, hrun, h⟩ := bind_eq_ok.mp h
    obtain ⟨rfl, rfl⟩ := pure_eq_ok.mp h
    exact ⟨rfl, edits_alloc fresh (.nothing rfl le_rfl fun _ => rfl) hrun⟩
  error h := by
    rcases bind_eq_error.mp h with h | ⟨locked, s₁, -, h⟩
    · cases h
    · exact absurd h pure_ne_error

theorem tracks_lock (tree : LockableTree K V) (fresh : s.Fresh) :
    Tracks lockable.cell tree.lock (some tree.contents.node) LockableNode.node s tree.places
      lockable.part where
  ok h := by
    obtain ⟨locked, s₁, hrun, h⟩ := bind_eq_ok.mp h
    obtain ⟨rfl, rfl⟩ := pure_eq_ok.mp h
    exact ⟨rfl, edits_alloc fresh .refl hrun⟩
  error h := by
    rcases bind_eq_error.mp h with h | ⟨locked, s₁, -, h⟩
    · cases h
    · exact absurd h pure_ne_error

/-- The result of a program that locks a node is paired with a value. -/
theorem tracks_pair {x : Exec Unit Cells (LockableNode K V)} {node : Node K V} {β : Type} (v : β)
    (hx : Tracks lockable.cell x (some node) LockableNode.node s old lockable.part)
    (fresh : s.Fresh) : TracksNode (x >>= fun node => pure (node, v)) (some (node, v)) s old :=
  hx.bind_some fresh fun h _ => .pure (by rw [h]) .refl

/-- A program that changes a node in place. -/
theorem tracks_reset {β : Type} (node : LockableNode K V)
    {x : ℕ → Exec Unit Cells (LockableNode K V × β)} {plain : Option (Node K V × β)}
    (fresh : s.Fresh)
    (hx : ∀ {locked s'}, s'.Fresh → Tracks lockable.cell (x locked) plain
      (fun r => (r.1.node, r.2)) s' node.inside fun r => r.1.inside)
    (root : ∀ {locked s' r s''}, x locked s' = (.ok r, s'') → r.1.locked = locked) :
    TracksNode (reset node.locked >>= x) plain s (lockable.part node) where
  ok {r s''} h := by
    obtain ⟨locked, s', hrun, h⟩ := bind_eq_ok.mp h
    obtain rfl := root h
    obtain ⟨hcontents, hnext⟩ := reset_frame hrun
    obtain ⟨hplain, edits⟩ := (hx (fresh.mono hcontents hnext)).ok h
    exact ⟨hplain, edits_reset fresh hrun edits⟩
  error {e s''} h := by
    rcases bind_eq_error.mp h with h | ⟨locked, s', hrun, h⟩
    · rcases reset_cases node.locked s with ⟨-, h'⟩ | h' <;> cases h'.symm.trans h
    · obtain ⟨hcontents, hnext⟩ := reset_frame hrun
      obtain ⟨hplain, hcontents', hnext'⟩ := (hx (fresh.mono hcontents hnext)).error h
      exact ⟨hplain, hcontents'.trans hcontents, hnext.trans hnext'⟩

/-! ### Insertions -/

theorem tracks_orDefault (slot : Option (LockableNode K V)) (fresh : s.Fresh) :
    Tracks lockable.cell (LockableNode.orDefault slot)
      (some ((slot.map LockableNode.node).getD .default)) LockableNode.node s
      (fun path => slot.bind fun node => lockable.part node path) lockable.part := by
  cases slot with
  | none => exact tracks_lockLeaf [] fresh
  | some node => exact .pure rfl .refl

/-- A program that inserts into trees as a function does. -/
def TracksInsert (treeInsert : LeafEntry K V → LockableTree K V →
      Exec Unit Cells (LockableTree K V × Option (K × V)))
    (plain : LeafEntry K V → TreeContents K V → Option (TreeContents K V × Option (K × V))) :
    Prop :=
  ∀ entry tree s, s.Fresh → Tracks lockable.cell (treeInsert entry tree)
    (plain entry tree.contents) (fun r => (r.1.contents, r.2)) s tree.places fun r => r.1.places

variable {treeInsert : LeafEntry K V → LockableTree K V →
    Exec Unit Cells (LockableTree K V × Option (K × V))}
  {plain : LeafEntry K V → TreeContents K V → Option (TreeContents K V × Option (K × V))}

theorem tracks_moveTo (hinsert : TracksInsert treeInsert plain) (values : List (LeafEntry K V))
    {tree : LockableTree K V} (fresh : s.Fresh) :
    Tracks lockable.cell (LeafContents.moveToLocked treeInsert values tree)
      (LeafContents.moveTo plain values tree.contents) LockableTree.contents s tree.places
      LockableTree.places := by
  induction values generalizing tree s with
  | nil => exact .pure rfl .refl
  | cons entry values ih =>
    refine (hinsert _ _ _ fresh).bind fresh (fun h => ?_) fun {r s'} h fresh' => ?_
    · simp only [LeafContents.moveTo, h, Option.bind_eq_bind, Option.bind_none]
    · simp only [LeafContents.moveTo, h, Option.bind_eq_bind, Option.bind_some]
      by_cases hnone : r.2.isNone = true
      · simp only [if_pos hnone]
        exact ih fresh'
      · simp only [if_neg hnone]
        exact .throw rfl

theorem tracks_leafInsert (hinsert : TracksInsert treeInsert plain) (values : List (LeafEntry K V))
    (fresh : s.Fresh) :
    TracksNode (LeafContents.insertLocked treeInsert entry values)
      (LeafContents.insert plain entry values) s old := by
  unfold LeafContents.insertLocked LeafContents.insert
  rcases LeafContents.replace entry values with _ | ⟨values', oldEntry⟩
  · by_cases hlt : values.length < 16
    · simp only [if_pos hlt]
      exact tracks_pair _ (tracks_lockLeaf _ fresh) fresh
    · simp only [if_neg hlt]
      have hnew : Edits lockable.cell s old s (LockableTree.new : LockableTree K V).places :=
        .nothing rfl le_rfl fun _ => rfl
      refine .from hnew ((hinsert _ _ _ fresh).bind fresh (fun h => ?_) fun {r s'} h fresh' => ?_)
      · change plain entry .new = none at h
        simp only [h, Option.bind_eq_bind, Option.bind_none]
      · change plain entry .new = some (r.1.contents, r.2) at h
        simp only [h, Option.bind_eq_bind, Option.bind_some]
        refine (tracks_moveTo hinsert values fresh').bind fresh' (fun h => ?_)
          fun {tree s''} h fresh'' => ?_
        · simp only [h, Option.bind_none]
        · simp only [h, Option.bind_some]
          exact tracks_pair _ (tracks_lock tree fresh'') fresh''
  · exact tracks_pair _ (tracks_lockLeaf _ fresh) fresh

theorem tracks_insertWith (hinsert : TracksInsert treeInsert plain) (node : LockableNode K V)
    (fresh : s.Fresh) :
    TracksNode (node.insertWith treeInsert entry) (node.node.insertWith plain entry) s
      (lockable.part node) := by
  cases node with
  | leaf locked values => exact tracks_leafInsert hinsert values fresh
  | tree locked len own branches =>
    refine tracks_reset (.tree locked len own branches) fresh (fun {locked' s'} fresh' => ?_)
      fun h => ?_
    · change Tracks _ _ ((plain entry (LockableTree.contents ⟨len, own, branches⟩)).bind
        fun r => some (r.1.node, r.2)) _ _ _ _
      refine (hinsert entry ⟨len, own, branches⟩ _ fresh').bind fresh' (fun h => ?_)
        fun {r s''} h fresh'' => ?_
      · rw [h, Option.bind_none]
      · rw [h, Option.bind_some]
        exact .pure rfl .refl
    · obtain ⟨r, s₁, -, h⟩ := bind_eq_ok.mp h
      obtain ⟨rfl, -⟩ := pure_eq_ok.mp h
      rfl

theorem tracks_insert (room : ℕ) :
    TracksInsert (LockableTree.insert room) (TreeContents.insert (K := K) (V := V) room) := by
  induction room with
  | zero =>
    intro entry tree s fresh
    unfold LockableTree.insert TreeContents.insert
    rcases entry.keyBytes.getIndexForDepth (maxDepth - 0) with _ | index
    · exact .pure rfl .refl
    · exact .throw rfl
  | succ room ih =>
    intro entry tree s fresh
    unfold LockableTree.insert TreeContents.insert
    rcases entry.keyBytes.getIndexForDepth (maxDepth - (room + 1)) with _ | index
    · exact .pure rfl .refl
    · have hbranch : TracksNode
          (LockableNode.orDefault (tree.branches index) >>= fun current =>
            current.insertWith (LockableTree.insert room) entry)
          (((slotNode (tree.branches index)).getD .default).insertWith
            (TreeContents.insert room) entry) s
          fun path => (tree.branches index).bind fun node => lockable.part node path := by
        refine (tracks_orDefault _ fresh).bind_some fresh fun {current s'} h fresh' => ?_
        rw [slotNode_eq, h]
        exact tracks_insertWith ih current fresh'
      change Tracks _ _ ((((slotNode (tree.branches index)).getD .default).insertWith
        (TreeContents.insert room) entry).bind _) _ _ _ _
      refine tracks_assoc.mp ((Objects.tracks_update (fun r => some r.1) hbranch).bind fresh
        (fun h => ?_) fun {r s'} h fresh' => ?_)
      · rw [h, Option.bind_none]
      · rw [h, Option.bind_some]
        exact .pure (by rw [LockableTree.contents_update]; rfl) .refl

/-! ### Changes in place and removals -/

theorem tracks_getMut (change : V → V) (depth : ℕ) (node : LockableNode K V) :
    ∀ {s : Cells}, s.Fresh → TracksNode (node.getMut key change depth)
      (some (node.node.getMut key change depth)) s (lockable.part node) := by
  induction node using LockableNode.induction generalizing depth with
  | leaf locked values =>
    intro s fresh
    refine tracks_reset (.leaf locked values) fresh (fun _ => .pure rfl ?_) fun h => ?_
    · exact .nothing rfl le_rfl fun _ => rfl
    · obtain ⟨rfl, -⟩ := pure_eq_ok.mp h
      rfl
  | tree locked tree ih =>
    intro s fresh
    change TracksNode ((tree.node locked).getMut key change depth)
      (some (tree.contents.node.getMut key change depth)) s (lockable.part (tree.node locked))
    unfold LockableTree.node TreeContents.node LockableNode.getMut Node.getMut
    rcases key.getIndexForDepth depth with _ | index
    · refine tracks_reset (tree.node locked) fresh (fun _ => .pure rfl .refl) fun h => ?_
      obtain ⟨rfl, -⟩ := pure_eq_ok.mp h
      rfl
    · refine tracks_reset (tree.node locked) fresh (fun {locked' s'} fresh' => ?_)
        fun h => ?_
      · have hbranch : Tracks lockable.cell
            (slotGetMutLocked key change (depth + 1) (tree.branches index))
            (some (slotGetMut key change (depth + 1) (slotNode (tree.branches index))))
            (fun r => (slotNode r.1, r.2)) s'
            (fun path => (tree.branches index).bind fun node => lockable.part node path)
            fun r path => r.1.bind fun node => lockable.part node path := by
          rcases hslot : tree.branches index with _ | branch
          · exact .pure rfl .refl
          · exact (ih index branch hslot (depth + 1) fresh').bind_some fresh' fun h _ =>
              .pure (by simp only [slotNode_eq, Option.map_some, slotGetMut, h]) .refl
        refine (Objects.tracks_update _ hbranch).bind_some fresh' fun {r s''} h _ => .pure ?_ .refl
        have h : slotGetMut key change (depth + 1) (slotNode (tree.branches index)) =
          (slotNode r.1, r.2) := h
        change some (TreeContents.node ⟨tree.len, tree.leaf,
            Function.update (fun j => slotNode (tree.branches j)) index
              (slotGetMut key change (depth + 1) (slotNode (tree.branches index))).1⟩,
          (slotGetMut key change (depth + 1) (slotNode (tree.branches index))).2) =
          some ((LockableTree.contents ⟨tree.len, tree.leaf,
            Function.update tree.branches index r.1⟩).node, r.2)
        rw [h, LockableTree.contents_update]
      · obtain ⟨slot, s₁, -, h⟩ := bind_eq_ok.mp h
        obtain ⟨rfl, -⟩ := pure_eq_ok.mp h
        rfl

/-- A tree whose branches were edited, and which is a leaf if it has few entries. -/
theorem tracks_intoNodeAfterRemoval (tree : LockableTree K V) (fresh : s.Fresh) :
    Tracks lockable.cell tree.intoNodeAfterRemoval (some tree.contents.intoNodeAfterRemoval)
      LockableNode.node s tree.places lockable.part := by
  unfold LockableTree.intoNodeAfterRemoval TreeContents.intoNodeAfterRemoval
  by_cases h : tree.len ≤ 16
  · have h' : tree.contents.len ≤ 16 := h
    rw [if_pos h, if_pos h']
    exact tracks_lockLeaf _ fresh
  · have h' : ¬tree.contents.len ≤ 16 := h
    rw [if_neg h, if_neg h']
    exact tracks_lock tree fresh

theorem tracks_remove (depth : ℕ) (node : LockableNode K V) :
    ∀ {s : Cells}, s.Fresh → TracksNode (node.remove key depth)
      (some (node.node.remove key depth)) s (lockable.part node) := by
  induction node using LockableNode.induction generalizing depth with
  | leaf locked values => exact fun fresh => tracks_pair _ (tracks_lockLeaf _ fresh) fresh
  | tree locked tree ih =>
    intro s fresh
    change TracksNode ((tree.node locked).remove key depth)
      (some (tree.contents.node.remove key depth)) s (lockable.part (tree.node locked))
    have inner : Edits lockable.cell s (lockable.part (tree.node locked)) s tree.places :=
      .sub (fun x : Nibble × List Nibble => x.1 :: x.2) cons_injective rfl le_rfl fun h => h
    refine .from inner ?_
    unfold LockableTree.node TreeContents.node LockableNode.remove Node.remove
    rcases key.getIndexForDepth depth with _ | index
    · dsimp only [LockableTree.contents]
      rcases tree.leaf with _ | entry
      · exact tracks_pair _ (tracks_lock ⟨tree.len, none, tree.branches⟩ fresh) fresh
      · by_cases hkey : entry.keyBytes = key
        · simp only [if_pos hkey]
          exact tracks_pair _
            (tracks_intoNodeAfterRemoval ⟨tree.len - 1, none, tree.branches⟩ fresh) fresh
        · simp only [if_neg hkey]
          exact tracks_pair _ (tracks_lock ⟨tree.len, some entry, tree.branches⟩ fresh) fresh
    · dsimp only [LockableTree.contents]
      obtain ⟨slot, hslot⟩ : ∃ slot, tree.branches index = slot := ⟨_, rfl⟩
      rw [hslot]
      rcases slot with _ | branch
      · exact tracks_pair _ (tracks_lock tree fresh) fresh
      · have hbranch : Tracks lockable.cell (branch.remove key (depth + 1))
            (some (branch.node.remove key (depth + 1))) (fun r => (r.1.node, r.2)) s
            (fun path => (tree.branches index).bind fun node => lockable.part node path)
            fun r path => (if r.1.isEmpty then none else some r.1).bind fun node =>
              lockable.part node path := by
          rw [hslot]
          refine (ih index branch hslot (depth + 1) fresh).drop fun {r s'} => ?_
          split
          · exact .nothing rfl le_rfl fun _ => rfl
          · exact .refl
        refine tracks_assoc.mpr ((Objects.tracks_update _ hbranch).bind_some fresh
          fun {r s'} h fresh' => ?_)
        have h : branch.node.remove key (depth + 1) = (r.1.node, r.2) := h
        have hcontents (len : ℕ) : (⟨len, tree.leaf, Function.update tree.contents.branches index
              (if r.1.node.isEmpty then none else some r.1.node)⟩ : TreeContents K V) =
            LockableTree.contents ⟨len, tree.leaf, Function.update tree.branches index
              (if r.1.isEmpty then none else some r.1)⟩ := by
          rw [LockableTree.contents_update, slotNode_eq, apply_ite (Option.map LockableNode.node)]
          rfl
        have hslotRemove : slotRemove key (depth + 1) (slotNode (some branch)) =
          some (r.1.node, r.2) := congrArg some h
        rw [hslotRemove]
        change Tracks _ (if r.2.isSome = true then _ else _)
          (some (if r.2.isSome = true then _ else _)) _ _ _ _
        by_cases hsome : r.2.isSome = true
        · have hnode := tracks_intoNodeAfterRemoval (s := s') ⟨tree.len - 1, tree.leaf,
            Function.update tree.branches index (if r.1.isEmpty then none else some r.1)⟩ fresh'
          rw [← hcontents] at hnode
          rw [if_pos hsome, if_pos hsome]
          exact tracks_pair _ hnode fresh'
        · have hnode := tracks_lock (s := s') ⟨tree.len, tree.leaf,
            Function.update tree.branches index (if r.1.isEmpty then none else some r.1)⟩ fresh'
          rw [← hcontents] at hnode
          rw [if_neg hsome, if_neg hsome]
          exact tracks_pair _ hnode fresh'

end Operations

/-! ## Serializing -/

section Serializing

variable {s : Cells}

/-- The contents of a branch. -/
def slotContents : Option (LockableNode K V) → MerkleContents
  | none => emptyBranchSerialize.finish
  | some node => lockable.value node

theorem slotSerialize_eq (slot : Option (LockableNode K V)) :
    slotSerialize (slotNode slot) = .storeContents (slotContents slot) := by
  cases slot <;> rfl

theorem storeAll_slots (branches : Nibble → Option (LockableNode K V)) (is : List Nibble) :
    MerkleSerializer.storeAll (fun i => slotSerialize (slotNode (branches i))) is =
      .storeAll .storeContents (is.map fun i => slotContents (branches i)) := by
  induction is with
  | nil => rfl
  | cons i is ih =>
    rw [List.map_cons, MerkleSerializer.storeAll, MerkleSerializer.storeAll, ih, slotSerialize_eq]

/-- Contents that are locked are right; others are serialized now, and those of the branches with
them. -/
theorem lockedOr_fills (node : LockableNode K V) {x : Exec Unit Cells MerkleContents}
    (sound : lockable.Sound s fun _ : Unit => some node)
    (hx : ∃ s', x s = (.ok (lockable.value node), s') ∧ lockable.Fills s node.inside s' ∧
      lockable.Filled s' node.inside) :
    ∃ s', lockedOr node.locked x s = (.ok (lockable.value node), s') ∧
      lockable.Fills s (lockable.part node) s' ∧ lockable.Filled s' (lockable.part node) := by
  have hroot : lockable.places (fun _ : Unit => some node) ((), []) = some node := rfl
  unfold lockedOr
  rw [get_bind]
  cases hcontents : s.contents node.locked with
  | some contents =>
    obtain rfl := sound.right hroot hcontents
    have hset : (s.contents node.locked).isSome = true := by rw [hcontents]; rfl
    exact ⟨s, rfl, .refl, fun _ _ h => sound.parts hroot hset h⟩
  | none =>
    obtain ⟨s', hrun, fills, filled⟩ := hx
    have inner : lockable.Fills s (lockable.part node) s' := fills.mono fun h => ⟨_, h⟩
    have outer : lockable.Fills s' (lockable.part node) _ :=
      .getOrInit (ε := Unit) (p := []) (o := node) rfl
    refine ⟨_, ?_, inner.trans outer, fun path o h => ?_⟩
    · exact bind_of_ok hrun
    · cases path with
      | nil =>
        obtain rfl := Option.some.inj h
        exact isSome_getOrInit (ε := Unit) _ _ s'
      | cons i path => exact outer.filled filled (i, path) o h

/-- Serializing a node gives its contents, and locks the contents of all nodes in it. -/
def Serializes (node : LockableNode K V) : Prop :=
  ∀ s : Cells, lockable.Sound s (fun _ : Unit => some node) →
    ∃ s', node.serialize s = (.ok (lockable.value node), s') ∧
      lockable.Fills s (lockable.part node) s' ∧ lockable.Filled s' (lockable.part node)

theorem sound_branch {ι : Type} {held : ι → Option (LockableNode K V)} {i : ι}
    {node : LockableNode K V} (sound : lockable.Sound s held) (hnode : held i = some node) :
    lockable.Sound s fun _ : Unit => some node :=
  sound.sub (fun x => (i, x.2)) (fun _ _ h => Prod.ext rfl (Prod.mk.inj h).2) fun h =>
    Objects.places_eq_some.mpr ⟨node, hnode, h⟩

/-- The branches are serialized one after another. -/
theorem collect_slots {branches : Nibble → Option (LockableNode K V)}
    (ih : ∀ i node, branches i = some node → Serializes node) (is : List Nibble) :
    ∀ {s : Cells}, lockable.Sound s branches →
      ∃ s', collect (fun i => slotSerializeLocked (branches i)) is s =
          (.ok (is.map fun i => slotContents (branches i)), s') ∧
        lockable.Fills s (lockable.places branches) s' ∧
        ∀ i ∈ is, ∀ node, branches i = some node → lockable.Filled s' (lockable.part node) := by
  induction is with
  | nil => exact fun {s} _ => ⟨s, rfl, .refl, nofun⟩
  | cons i is ih' =>
    intro s sound
    have hfirst : ∃ s₁, slotSerializeLocked (branches i) s = (.ok (slotContents (branches i)), s₁) ∧
        lockable.Sound s₁ branches ∧ lockable.Fills s (lockable.places branches) s₁ ∧
        ∀ node, branches i = some node → lockable.Filled s₁ (lockable.part node) := by
      rcases hnode : branches i with _ | node
      · exact ⟨s, rfl, sound, .refl, nofun⟩
      · obtain ⟨s₁, hrun, fills, filled⟩ := ih i node hnode s (sound_branch sound hnode)
        refine ⟨s₁, hrun, sound.fill hnode fills filled, fills.mono fun {path o} h =>
          ⟨(i, path), Objects.places_eq_some.mpr ⟨node, hnode, h⟩⟩, fun node' h => ?_⟩
        obtain rfl := Option.some.inj h
        exact filled
    obtain ⟨s₁, hrun, sound₁, fills, filled⟩ := hfirst
    obtain ⟨s', hrun', fills', filled'⟩ := ih' sound₁
    refine ⟨s', ?_, fills.trans fills', fun j hj node hnode => ?_⟩
    · exact (bind_of_ok hrun).trans (bind_of_ok hrun')
    · rcases List.mem_cons.mp hj with rfl | hj
      · exact fills'.filled (filled node hnode)
      · exact filled' j hj node hnode

theorem serializes (node : LockableNode K V) : Serializes node := by
  induction node using LockableNode.induction with
  | leaf locked values =>
    exact fun s sound => lockedOr_fills (.leaf locked values) sound
      ⟨s, rfl, .refl, nofun⟩
  | tree locked tree ih =>
    intro s sound
    refine lockedOr_fills (tree.node locked) sound ?_
    have branches : lockable.Sound s tree.branches :=
      sound.sub (fun x => ((), x.1 :: x.2))
        (fun _ _ h => cons_injective (Prod.mk.inj h).2) fun h => h
    obtain ⟨s', hrun, fills, filled⟩ := collect_slots ih (List.finRange 16) branches
    refine ⟨s', ?_, fills, fun x o h => ?_⟩
    · have hvalue : lockable.value (tree.node locked) =
          (.storeByte 43 ++ .storeUsize tree.len ++ storeLeaf tree.leaf ++
            .storeAll .storeContents ((List.finRange 16).map fun i =>
              slotContents (tree.branches i)) : MerkleSerializer).finish := by
        rw [← storeAll_slots]
        rfl
      rw [hvalue]
      exact bind_of_ok hrun
    · obtain ⟨node, hnode, hpart⟩ := Option.bind_eq_some_iff.mp h
      exact filled x.1 (List.mem_finRange _) node hnode _ _ hpart

end Serializing

/-! ## Maps without cells -/

/-- The maps of a program as values, and whether each was serialized since it was changed. -/
abbrev PlainMaps (K V : Type) := ℕ → Option (MerkleMap K V × Bool)

namespace PlainMaps

def change {β : Type} (i : ℕ) (answer : β → MapAnswer K V)
    (f : MerkleMap K V → Option (MerkleMap K V × β)) (maps : PlainMaps K V) :
    MapAnswer K V × PlainMaps K V :=
  match maps i with
  | none => (.absent, maps)
  | some (map, _) =>
    match f map with
    | some (map, v) => (answer v, Function.update maps i (some (map, false)))
    | none => (.panic, Function.update maps i (some (.new, false)))

variable [ToMerkleKey K]

def call (maps : PlainMaps K V) : MapCall K V → MapAnswer K V × PlainMaps K V
  | .new i => (.done, Function.update maps i (some (.new, false)))
  | .clone i j =>
    match maps i with
    | none => (.absent, maps)
    | some map => (.done, Function.update maps j (some map))
  | .drop i => (.done, Function.update maps i none)
  | .insert i key value => maps.change i .entry (MerkleMap.insert key value)
  | .getMut i key change => maps.change i .value fun map => some (map.getMut key change)
  | .remove i key => maps.change i .entry fun map => some (map.remove key)
  | .serialize i =>
    match maps i with
    | none => (.absent, maps)
    | some (map, _) => (.contents (serialize map), Function.update maps i (some (map, true)))

def service : Service (PlainMaps K V) (MapCall K V) (MapAnswer K V) := ⟨call⟩

end PlainMaps

/-- Only maps are cloned that were serialized since they were made or changed. -/
def ClonesLocked (maps : PlainMaps K V) : MapCall K V → Prop
  | .clone i _ => ∀ map clean, maps i = some (map, clean) → clean = true
  | _ => True

/-! ## The maps with cells refine them -/

/-- A variable holds the map that it should, and the cell of a map that was serialized is set. -/
def Shows (cells : Cells) : Option (LockableNode K V) → Option (MerkleMap K V × Bool) → Prop
  | none, none => True
  | some node, some (map, clean) =>
    node.node = map.node ∧ (clean = true → (cells.contents node.locked).isSome = true)
  | _, _ => False

structure Mirrors (maps : Maps K V) (plain : PlainMaps K V) : Prop where
  sound : lockable.Sound maps.cells maps.held
  shows : ∀ i, Shows maps.cells (maps.held i) (plain i)

section

variable {cells cells' : Cells} {maps : Maps K V} {plain : PlainMaps K V}

omit [MerkleSerializeRaw V] [Sha256] in
theorem Shows.mono (h : ∀ c, (cells.contents c).isSome = true → (cells'.contents c).isSome = true)
    {held : Option (LockableNode K V)} {map : Option (MerkleMap K V × Bool)}
    (shows : Shows cells held map) : Shows cells' held map := by
  cases held <;> cases map
  · trivial
  · exact shows
  · exact shows
  · exact ⟨shows.1, fun hclean => h _ (shows.2 hclean)⟩

omit [MerkleSerializeRaw V] [Sha256] in
theorem shows_update {held : ℕ → Option (LockableNode K V)} {i : ℕ}
    {slot : Option (LockableNode K V)} {map : Option (MerkleMap K V × Bool)}
    (others : ∀ j, Shows cells (held j) (plain j)) (new : Shows cells slot map) (j : ℕ) :
    Shows cells (Function.update held i slot j) (Function.update plain i map j) := by
  obtain rfl | hne := eq_or_ne j i
  · rw [Function.update_self, Function.update_self]
    exact new
  · rw [Function.update_of_ne hne, Function.update_of_ne hne]
    exact others j

/-- A variable gets another node. -/
theorem Mirrors.edit (mirrors : Mirrors maps plain) {i : ℕ} (slot : Option (LockableNode K V))
    {map : Option (MerkleMap K V × Bool)}
    (edits : Edits lockable.cell maps.cells
      (fun path => (maps.held i).bind fun node => lockable.part node path) cells
      fun path => slot.bind fun node => lockable.part node path)
    (new : Shows cells slot map) :
    Mirrors ⟨cells, Function.update maps.held i slot⟩ (Function.update plain i map) where
  sound := mirrors.sound.edit edits
  shows := shows_update (fun j => (mirrors.shows j).mono fun _ h => edits.contents ▸ h) new

/-- A variable gets an empty map. -/
theorem Mirrors.renew (mirrors : Mirrors maps plain) (i : ℕ) {s : Cells}
    (contents : s.contents = maps.cells.contents) (next : maps.cells.next ≤ s.next) :
    Mirrors ((⟨s, maps.held⟩ : Maps K V).hold i (LockableNode.lockLeaf []))
      (Function.update plain i (some (.new, false))) := by
  have fresh : s.Fresh := Fresh.mono mirrors.sound.fresh contents next
  have first : Edits lockable.cell maps.cells
      (fun path => (maps.held i).bind fun node => lockable.part node path) s
      fun path => (maps.held i).bind fun node => lockable.part node path :=
    .sub id Function.injective_id contents next fun h => h
  obtain ⟨hnode, edits⟩ := (tracks_lockLeaf [] fresh).ok
    (rfl : LockableNode.lockLeaf ([] : List (LeafEntry K V)) s = (.ok (.leaf s.next []), _))
  exact mirrors.edit (some (.leaf s.next [])) (first.trans edits) ⟨rfl, nofun⟩

/-- A program on the node of a variable that does what a function does on the map. -/
theorem Mirrors.change {β : Type} (mirrors : Mirrors maps plain) (i : ℕ)
    (answer : β → MapAnswer K V)
    {x : LockableNode K V → Exec Unit Cells (LockableNode K V × β)}
    {f : MerkleMap K V → Option (MerkleMap K V × β)}
    (h : ∀ node s, s.Fresh → TracksNode (x node)
      ((f ⟨node.node⟩).map fun r => (r.1.node, r.2)) s (lockable.part node)) :
    (maps.change i answer x).1 = (plain.change i answer f).1 ∧
      Mirrors (maps.change i answer x).2 (plain.change i answer f).2 := by
  have shows := mirrors.shows i
  unfold Maps.change PlainMaps.change
  rcases hheld : maps.held i with _ | node <;> rcases hplain : plain i with _ | ⟨map, clean⟩ <;>
    rw [hheld, hplain] at shows
  · exact ⟨rfl, mirrors⟩
  · exact shows.elim
  · exact shows.elim
  · obtain ⟨hnode, -⟩ := shows
    have hx := h node maps.cells mirrors.sound.fresh
    rw [hnode] at hx
    rcases hrun : x node maps.cells with ⟨⟨⟩ | ⟨node', v⟩, cells⟩
    · obtain ⟨hf, hcontents, hnext⟩ := hx.error hrun
      have hf : f map = none := Option.map_eq_none_iff.mp hf
      simp only [hrun, hf]
      exact ⟨trivial, mirrors.renew i hcontents hnext⟩
    · obtain ⟨hf, edits⟩ := hx.ok hrun
      obtain ⟨⟨map', v'⟩, hfound, heq⟩ := Option.map_eq_some_iff.mp hf
      obtain ⟨hmap, rfl⟩ := Prod.mk.inj heq
      have hf : f map = some (map', v') := hfound
      simp only [hrun, hf]
      have new : Shows cells (some node') (some (map', false)) := ⟨hmap.symm, nofun⟩
      refine ⟨trivial, mirrors.edit _ ?_ new⟩
      rw [hheld]
      exact edits

variable [ToMerkleKey K]

theorem mirrors_call (mirrors : Mirrors maps plain) {c : MapCall K V}
    (locked : ClonesLocked plain c) :
    (maps.call c).1 = (plain.call c).1 ∧ Mirrors (maps.call c).2 (plain.call c).2 := by
  cases c with
  | new i => exact ⟨rfl, mirrors.renew i rfl le_rfl⟩
  | clone i j =>
    have shows := mirrors.shows i
    unfold Maps.call PlainMaps.call
    rcases hheld : maps.held i with _ | node <;> rcases hplain : plain i with _ | ⟨map, clean⟩ <;>
      simp only [hheld, hplain] at shows ⊢
    · exact ⟨trivial, mirrors⟩
    · exact shows.elim
    · exact shows.elim
    · obtain rfl := locked map clean hplain
      have hset := shows.2 rfl
      have hroot : lockable.places maps.held (i, []) = some node :=
        Objects.places_eq_some.mpr ⟨node, hheld, rfl⟩
      exact ⟨trivial, mirrors.sound.copy hheld fun _ _ h => mirrors.sound.parts hroot hset h,
        shows_update mirrors.shows shows⟩
  | drop i =>
    exact ⟨rfl, mirrors.edit none (.nothing rfl le_rfl fun _ => rfl) trivial⟩
  | insert i key value =>
    refine mirrors.change i .entry fun node s fresh => ?_
    have hplain : (MerkleMap.insert key value ⟨node.node⟩).map (fun r => (r.1.node, r.2)) =
        node.node.insert maxDepth ⟨ToMerkleKey.toMerkleKey key, key, value⟩ := by
      change Option.map _ (Option.bind _ fun r : Node K V × Option (K × V) =>
        some ((⟨r.1⟩ : MerkleMap K V), r.2)) = _
      rcases node.node.insert maxDepth ⟨ToMerkleKey.toMerkleKey key, key, value⟩ with _ | r <;> rfl
    rw [hplain]
    exact tracks_insertWith (tracks_insert maxDepth) node fresh
  | getMut i key change =>
    exact mirrors.change i .value fun node s fresh => tracks_getMut change 0 node fresh
  | remove i key =>
    exact mirrors.change i .entry fun node s fresh => tracks_remove 0 node fresh
  | serialize i =>
    have shows := mirrors.shows i
    unfold Maps.call PlainMaps.call
    rcases hheld : maps.held i with _ | node <;> rcases hplain : plain i with _ | ⟨map, clean⟩ <;>
      simp only [hheld, hplain] at shows ⊢
    · exact ⟨trivial, mirrors⟩
    · exact shows.elim
    · exact shows.elim
    · obtain ⟨s', hrun, fills, filled⟩ :=
        serializes node maps.cells (sound_branch mirrors.sound hheld)
      rw [hrun]
      obtain ⟨hnode, -⟩ := shows
      refine ⟨?_, mirrors.sound.fill hheld fills filled, fun j => ?_⟩
      · exact congrArg (fun node => MapAnswer.contents node.merkleSerialize.finish) hnode
      · have kept : Shows s' (maps.held j) (plain j) := (mirrors.shows j).mono fun c h => by
          obtain ⟨a, ha⟩ := Option.isSome_iff_exists.mp h
          rw [fills.kept ha]
          rfl
        obtain rfl | hne := eq_or_ne j i
        · rw [Function.update_self, hheld]
          exact ⟨hnode, fun _ => filled [] node rfl⟩
        · rw [Function.update_of_ne hne]
          exact kept

end

/-- As long as only maps are cloned whose contents are locked, all answers, also the contents of
serialized maps, are those of maps that are values. -/
theorem Maps.answers_eq_plain [ToMerkleKey K] (calls : List (MapCall K V))
    (locked : (PlainMaps.service : Service (PlainMaps K V) _ _).Along ClonesLocked (fun _ => none)
      calls) :
    (Maps.service : Service (Maps K V) _ _).answers .empty calls =
      PlainMaps.service.answers (fun _ => none) calls := by
  have refines : (Maps.service : Service (Maps K V) _ _).Refines PlainMaps.service id ClonesLocked
      Mirrors := ⟨fun mirrors locked => mirrors_call mirrors locked⟩
  have start : Mirrors (Maps.empty : Maps K V) fun _ => none :=
    ⟨⟨nofun, nofun, nofun, nofun, fun _ => rfl⟩, fun _ => trivial⟩
  have h := refines.answers start locked
  rwa [List.map_id] at h

end Contents

namespace CloneSample

scoped instance : Sha256 := ⟨fun _ => 0⟩

def calls : List (MapCall UInt8 UInt8) :=
  [.new 0, .insert 0 3 5, .serialize 0, .clone 0 1, .getMut 0 ⟨[3]⟩ fun _ => 7, .serialize 0,
    .serialize 1]

/-- The map is cloned before it is serialized. -/
def unlocked : List (MapCall UInt8 UInt8) :=
  [.new 0, .insert 0 3 5, .clone 0 1, .getMut 0 ⟨[3]⟩ fun _ => 7, .serialize 0, .serialize 1]

/-- The bytes of serialized contents. -/
def payload {K V : Type} : MapAnswer K V → Bytes
  | .contents contents => contents.payload
  | _ => []

end CloneSample

open CloneSample in
theorem Maps.answers_of_locked_clone :
    (Maps.service : Service (Maps UInt8 UInt8) _ _).answers .empty calls =
      PlainMaps.service.answers (fun _ => none) calls :=
  Maps.answers_eq_plain calls ⟨trivial, trivial, trivial,
    fun _ _ h => (congrArg Prod.snd (Option.some.inj h)).symm, trivial, trivial, trivial, trivial⟩

open CloneSample in
/-- The serialized clone has the value that was put into the other map. -/
example :
    (((Maps.service : Service (Maps UInt8 UInt8) _ _).answers .empty unlocked).map
      payload).drop 4 = [[42, 1, 1, 3, 7], [42, 1, 1, 3, 7]] ∧
    ((PlainMaps.service.answers (fun _ => none) unlocked).map payload).drop 4 =
      [[42, 1, 1, 3, 7], [42, 1, 1, 3, 5]] := by
  decide +kernel

end Kolme.Merkle
