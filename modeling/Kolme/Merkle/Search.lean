import Kolme.Merkle.Operations

/-!
# Searches in the Merkle map

The first entry of a node after a key, the last one before it, and the draining of a node, in terms
of the list of its entries.
-/

namespace Kolme.Merkle

variable {K V : Type} {path : List Nibble} {key : MerkleKey}

/-! ## First and last entries -/

theorem Node.findFirstEntry_eq (node : Node K V) : node.findFirstEntry = node.entries.head? := by
  induction node using Node.induction with
  | leaf values => rfl
  | tree tree ih =>
    have hslot : ∀ i, slotFindFirstEntry (tree.branches i) =
        (slotEntries (tree.branches i)).head? := fun i => by
      cases hnode : tree.branches i with
      | none => rfl
      | some node => exact ih i node hnode
    have hentries : tree.node.entries = _ := tree.entries_eq
    rw [hentries, List.head?_append, List.head?_flatMap]
    simp only [TreeContents.node, Node.findFirstEntry, hslot]
    cases tree.leaf <;> rfl

theorem Node.findLastEntry_eq (node : Node K V) : node.findLastEntry = node.entries.getLast? := by
  induction node using Node.induction with
  | leaf values => rfl
  | tree tree ih =>
    have hslot : ∀ i, slotFindLastEntry (tree.branches i) =
        (slotEntries (tree.branches i)).getLast? := fun i => by
      cases hnode : tree.branches i with
      | none => rfl
      | some node => exact ih i node hnode
    have hentries : tree.node.entries = _ := tree.entries_eq
    rw [hentries, List.getLast?_append, List.getLast?_flatMap]
    simp only [TreeContents.node, Node.findLastEntry, hslot]
    generalize (List.finRange 16).reverse.findSome? _ = last
    cases last <;> cases tree.leaf <;> rfl

/-! ## Entries around a key -/

/-- The key goes through the branch, or ends above it. -/
inductive Leads (key : MerkleKey) (path : List Nibble) : Nibble → Prop
  | through {branch : Nibble} (h : path ++ [branch] <+: key.nibbles) : Leads key path branch
  | ends (h : key.nibbles <+: path) : Leads key path 0

/-- A search for a key goes on in the branch that the key leads to. -/
theorem leads_getIndexForDepth (h : path <+: key.nibbles ∨ key.nibbles <+: path) :
    Leads key path ((key.getIndexForDepth path.length).getD 0) := by
  cases hindex : key.getIndexForDepth path.length with
  | none =>
    refine .ends ?_
    rcases h with h | h
    · rw [(MerkleKey.getIndexForDepth_eq_none h).mp hindex]
    · exact h
  | some index =>
    refine .through ((MerkleKey.getIndexForDepth_eq_some ?_).mp hindex)
    rcases h with h | h
    · exact h
    · rw [MerkleKey.getIndexForDepth_eq, List.getElem?_eq_none h.length_le] at hindex
      cases hindex

theorem Leads.below {branch : Nibble} (h : Leads key path branch) :
    path ++ [branch] <+: key.nibbles ∨ key.nibbles <+: path ++ [branch] := by
  cases h with
  | through h => exact .inl h
  | ends h => exact .inr (h.trans (List.prefix_append path [0]))

/-- Keys of later branches are larger. -/
theorem Leads.lt {branch i : Nibble} {other : MerkleKey} (h : Leads key path branch)
    (hi : path ++ [i] <+: other.nibbles) (hlt : branch < i) : key < other := by
  cases h with
  | through h => exact nibbles_lt_of_branch h hi hlt
  | ends h =>
    obtain ⟨rest, rfl⟩ := h
    rw [MerkleKey.lt_iff_nibbles]
    obtain ⟨others, hothers⟩ := hi
    rw [← hothers, List.append_assoc, List.append_assoc]
    nth_rewrite 1 [← List.append_nil key.nibbles]
    refine List.append_left_lt ?_
    cases rest <;> exact List.nil_lt_cons _ _

/-- Keys of earlier branches are smaller. -/
theorem Leads.gt {branch i : Nibble} {other : MerkleKey} (h : Leads key path branch)
    (hi : path ++ [i] <+: other.nibbles) (hlt : i < branch) : other < key := by
  cases h with
  | through h => exact nibbles_lt_of_branch hi h hlt
  | ends h => exact absurd hlt (Nat.not_lt_zero _)

/-- The branches before one, that one, and the branches after it. -/
theorem finRange_split (branch : Nibble) :
    List.finRange 16 = (List.finRange 16).take branch.val ++
      branch :: (List.finRange 16).drop (branch.val + 1) := by
  have hlength : branch.val < (List.finRange 16).length := by simp
  have hdrop := List.drop_eq_getElem_cons hlength
  rw [List.getElem_finRange] at hdrop
  conv_lhs => rw [← List.take_append_drop branch.val (List.finRange 16), hdrop]
  rfl

theorem lt_of_mem_take {branch i : Nibble} (h : i ∈ (List.finRange 16).take branch.val) :
    i < branch := by
  obtain ⟨j, hj, rfl⟩ := List.mem_take_iff_getElem.mp h
  rw [List.getElem_finRange]
  exact (by simpa using hj.trans_le (Nat.min_le_left _ _) : _)

theorem gt_of_mem_drop {branch i : Nibble} (h : i ∈ (List.finRange 16).drop (branch.val + 1)) :
    branch < i := by
  obtain ⟨j, hj, rfl⟩ := List.mem_drop_iff_getElem.mp h
  rw [List.getElem_finRange, Fin.lt_def]
  simp
  omega

/-- Only the branch of the key has to be searched. -/
theorem findSome?_from {α : Type} {f : Nibble → Option α} {branch : Nibble}
    (h : ∀ i < branch, f i = none) :
    (List.finRange 16).findSome? f =
      (f branch).or (((List.finRange 16).drop (branch.val + 1)).findSome? f) := by
  have hbefore : ((List.finRange 16).take branch.val).findSome? f = none :=
    List.findSome?_eq_none_iff.mpr fun i hi => h i (lt_of_mem_take hi)
  conv_lhs => rw [finRange_split branch]
  rw [List.findSome?_append, hbefore, Option.none_or, List.findSome?_cons]
  cases f branch <;> rfl

theorem findSome?_reverse_from {α : Type} {f : Nibble → Option α} {branch : Nibble}
    (h : ∀ i, branch < i → f i = none) :
    (List.finRange 16).reverse.findSome? f =
      (f branch).or (((List.finRange 16).take branch.val).reverse.findSome? f) := by
  have hafter : ((List.finRange 16).drop (branch.val + 1)).reverse.findSome? f = none :=
    List.findSome?_eq_none_iff.mpr fun i hi => h i (gt_of_mem_drop (List.mem_reverse.mp hi))
  conv_lhs => rw [finRange_split branch]
  rw [List.reverse_append, List.reverse_cons, List.findSome?_append, List.findSome?_append, hafter,
    Option.none_or, List.findSome?_singleton]

theorem findSome?_congr {α : Type} {f g : Nibble → Option α} {is : List Nibble}
    (h : ∀ i ∈ is, f i = g i) : is.findSome? f = is.findSome? g := by
  induction is with
  | nil => rfl
  | cons i is ih =>
    obtain ⟨hi, his⟩ := List.forall_mem_cons.mp h
    rw [List.findSome?_cons, List.findSome?_cons, hi, ih his]

theorem find?_eq_head? {l : List (LeafEntry K V)} {p : LeafEntry K V → Bool}
    (h : ∀ x ∈ l, p x = true) : l.find? p = l.head? := by
  cases l with
  | nil => rfl
  | cons x l => rw [List.find?_cons_of_pos (h x (List.mem_cons_self ..)), List.head?_cons]

theorem find?_toList {α : Type} (o : Option α) (p : α → Bool) : o.toList.find? p = o.filter p := by
  cases o with
  | none => rfl
  | some a => by_cases h : p a <;> simp [Option.filter, h]

theorem slotFindFirstEntry_eq (slot : Option (Node K V)) :
    slotFindFirstEntry slot = (slotEntries slot).head? := by
  cases slot with
  | none => rfl
  | some node => exact node.findFirstEntry_eq

theorem slotFindLastEntry_eq (slot : Option (Node K V)) :
    slotFindLastEntry slot = (slotEntries slot).getLast? := by
  cases slot with
  | none => rfl
  | some node => exact node.findLastEntry_eq

/-- The first entry after a key. -/
theorem Node.Valid.findEntryAfter {node : Node K V} (h : node.Valid path)
    (hkey : path <+: key.nibbles ∨ key.nibbles <+: path) :
    node.findEntryAfter key path.length =
      node.entries.find? fun entry => key < entry.keyBytes := by
  induction h using Node.Valid.induct with
  | leaf path values full sorted below => rfl
  | tree path tree large h ih =>
    have hleads := leads_getIndexForDepth hkey
    have hentries : tree.node.entries = _ := tree.entries_eq
    rw [hentries, List.find?_append, List.find?_flatMap]
    simp only [TreeContents.node, Node.findEntryAfter, slotFindFirstEntry_eq]
    generalize (key.getIndexForDepth path.length).getD 0 = branch at hleads ⊢
    have hbefore : ∀ i < branch,
        (slotEntries (tree.branches i)).find? (fun entry => key < entry.keyBytes) = none := by
      intro i hi
      refine List.find?_eq_none.mpr fun x hx => ?_
      simpa using (hleads.gt (h.begins_slot hx) hi).le
    have hafter : ∀ i ∈ (List.finRange 16).drop (branch.val + 1),
        (slotEntries (tree.branches i)).find? (fun entry => key < entry.keyBytes) =
          (slotEntries (tree.branches i)).head? := by
      intro i hi
      refine find?_eq_head? fun x hx => ?_
      simpa using hleads.lt (h.begins_slot hx) (gt_of_mem_drop hi)
    have hslot : slotFindEntryAfter key (path.length + 1) (tree.branches branch) =
        (slotEntries (tree.branches branch)).find? (fun entry => key < entry.keyBytes) := by
      cases hnode : tree.branches branch with
      | none => rfl
      | some node =>
        have := ih branch node hnode hleads.below
        rwa [List.length_append, List.length_singleton] at this
    rw [findSome?_from hbefore, hslot, findSome?_congr hafter]
    rw [find?_toList]
    generalize tree.leaf.filter _ = own
    generalize (slotEntries (tree.branches branch)).find? _ = found
    cases own <;> cases found <;> rfl

/-- The last entry before a key. -/
theorem Node.Valid.findEntryBefore {node : Node K V} (h : node.Valid path)
    (hkey : path <+: key.nibbles ∨ key.nibbles <+: path) :
    node.findEntryBefore key path.length =
      node.entries.reverse.find? fun entry => entry.keyBytes < key := by
  induction h using Node.Valid.induct with
  | leaf path values full sorted below => rfl
  | tree path tree large h ih =>
    have hleads := leads_getIndexForDepth hkey
    have hentries : tree.node.entries = _ := tree.entries_eq
    rw [hentries, List.reverse_append, List.reverse_flatMap, List.find?_append, List.find?_flatMap]
    simp only [TreeContents.node, Node.findEntryBefore, slotFindLastEntry_eq, Function.comp_apply]
    generalize (key.getIndexForDepth path.length).getD 0 = branch at hleads ⊢
    have hafter : ∀ i, branch < i →
        (slotEntries (tree.branches i)).reverse.find? (fun entry => entry.keyBytes < key) =
          none := by
      intro i hi
      refine List.find?_eq_none.mpr fun x hx => ?_
      simpa using (hleads.lt (h.begins_slot (List.mem_reverse.mp hx)) hi).le
    have hbefore : ∀ i ∈ ((List.finRange 16).take branch.val).reverse,
        (slotEntries (tree.branches i)).reverse.find? (fun entry => entry.keyBytes < key) =
          (slotEntries (tree.branches i)).getLast? := by
      intro i hi
      rw [← List.head?_reverse]
      refine find?_eq_head? fun x hx => ?_
      simpa using hleads.gt (h.begins_slot (List.mem_reverse.mp hx))
        (lt_of_mem_take (List.mem_reverse.mp hi))
    have hslot : slotFindEntryBefore key (path.length + 1) (tree.branches branch) =
        (slotEntries (tree.branches branch)).reverse.find? (fun entry => entry.keyBytes < key) := by
      cases hnode : tree.branches branch with
      | none => rfl
      | some node =>
        have := ih branch node hnode hleads.below
        rwa [List.length_append, List.length_singleton] at this
    rw [findSome?_reverse_from hafter, hslot, findSome?_congr hbefore]
    have hown : tree.leaf.toList.reverse = tree.leaf.toList := by cases tree.leaf <;> rfl
    rw [hown, find?_toList]
    generalize tree.leaf.filter _ = own
    generalize (slotEntries (tree.branches branch)).reverse.find? _ = found
    generalize List.findSome? _ _ = earlier
    cases found <;> cases earlier <;> rfl

/-! ## Draining -/

/-- A branch that is cleared has no entries. -/
theorem slotEntries_clear (slot : Option (Node K V)) :
    slotEntries (if slot.any Node.isEmpty then none else slot) = slotEntries slot := by
  cases slot with
  | none => rfl
  | some node => exact slotEntries_afterRemoval node

/-- The branches in turn, given that each gives its first entry. -/
theorem popBranches_spec {pop : Nibble → Option (K × V) × Option (Node K V)}
    {branches : Nibble → Option (Node K V)} {is : List Nibble} (hnodup : is.Nodup)
    (hpop : ∀ i ∈ is, (pop i).1 = (slotEntries (branches i)).head?.map LeafEntry.pair ∧
      slotEntries (pop i).2 = (slotEntries (branches i)).tail) :
    (popBranches pop is branches).1 =
        (is.flatMap fun i => slotEntries (branches i)).head?.map LeafEntry.pair ∧
      (is.flatMap fun i => slotEntries ((popBranches pop is branches).2 i)) =
        (is.flatMap fun i => slotEntries (branches i)).tail ∧
      ∀ i ∉ is, (popBranches pop is branches).2 i = branches i := by
  induction is generalizing branches with
  | nil => exact ⟨rfl, rfl, fun _ _ => rfl⟩
  | cons i is ih =>
    obtain ⟨hi, hnodup⟩ := List.nodup_cons.mp hnodup
    obtain ⟨hpopi, hpop⟩ := List.forall_mem_cons.mp hpop
    unfold popBranches
    cases hresult : pop i with
    | mk popped slot =>
      rw [hresult] at hpopi
      obtain ⟨hpopped, hslot⟩ := hpopi
      simp only at hpopped hslot ⊢
      generalize hbranches : Function.update branches i (if slot.any Node.isEmpty then none else slot) =
        branches'
      have hsame : ∀ j, j ≠ i → branches' j = branches j := fun j hj => by
        rw [← hbranches, Function.update_of_ne hj]
      have hcleared : slotEntries (branches' i) = slotEntries slot := by
        rw [← hbranches, Function.update_self, slotEntries_clear]
      have hothers : (is.flatMap fun j => slotEntries (branches' j)) =
          is.flatMap fun j => slotEntries (branches j) :=
        List.flatMap_congr fun j hj => by rw [hsame j fun hji => hi (hji ▸ hj)]
      cases hentries : slotEntries (branches i) with
      | nil =>
        rw [hentries] at hpopped hslot
        have hpop' : ∀ j ∈ is, (pop j).1 = (slotEntries (branches' j)).head?.map LeafEntry.pair ∧
            slotEntries (pop j).2 = (slotEntries (branches' j)).tail := fun j hj => by
          rw [hsame j fun hji => hi (hji ▸ hj)]
          exact hpop j hj
        obtain ⟨hfirst, hrest, hkept⟩ := ih hnodup hpop'
        simp only [hpopped, List.head?_nil, Option.map_none]
        refine ⟨?_, ?_, fun j hj => ?_⟩
        · rw [List.flatMap_cons, hentries, List.nil_append, hfirst, hothers]
        · rw [List.flatMap_cons, List.flatMap_cons, hkept i hi, hcleared, hslot, hentries,
            List.tail_nil, List.nil_append, List.nil_append, hrest, hothers]
        · rw [List.mem_cons, not_or] at hj
          rw [hkept j hj.2, hsame j hj.1]
      | cons x entries =>
        rw [hentries] at hpopped hslot
        simp only [hpopped, List.head?_cons, Option.map_some]
        refine ⟨?_, ?_, fun j hj => ?_⟩
        · rw [List.flatMap_cons, hentries]
          rfl
        · rw [List.flatMap_cons, List.flatMap_cons, hcleared, hslot, hentries, hothers]
          rfl
        · rw [List.mem_cons, not_or] at hj
          exact hsame j hj.1

/-- The first entry is taken out of a node. -/
theorem Node.popFirst_spec (node : Node K V) :
    node.popFirst.1 = node.entries.head?.map LeafEntry.pair ∧
      node.popFirst.2.entries = node.entries.tail := by
  induction node using Node.induction with
  | leaf values => cases values <;> exact ⟨rfl, rfl⟩
  | tree tree ih =>
    obtain ⟨len, own, branches⟩ := tree
    cases own with
    | some entry => exact ⟨rfl, rfl⟩
    | none =>
      have hpop : ∀ i ∈ List.finRange 16,
          (slotPopFirst (branches i)).1 = (slotEntries (branches i)).head?.map LeafEntry.pair ∧
            slotEntries (slotPopFirst (branches i)).2 = (slotEntries (branches i)).tail :=
        fun i _ => by
          cases hnode : branches i with
          | none => exact ⟨rfl, rfl⟩
          | some node => exact ih i node hnode
      have hspec := popBranches_spec (List.nodup_finRange 16) hpop
      exact ⟨hspec.1, hspec.2.1⟩

end Kolme.Merkle
