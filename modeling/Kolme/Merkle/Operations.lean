import Kolme.Merkle.Invariant
import Mathlib.Algebra.BigOperators.Group.Finset.Piecewise

/-!
# Operations on the nodes of the Merkle map

What a lookup, an insertion and a removal do to the entries of a valid node. Each keeps the
invariant, and an insertion does not run out of levels if the keys are short.
-/

namespace Kolme.Merkle

variable {K V : Type} {path : List Nibble} {key : MerkleKey} {entry : LeafEntry K V}
  {l : List (LeafEntry K V)}

/-! ## Keys in a sorted list -/

theorem nodup_keys (h : l.Pairwise LeafEntry.Before) : (l.map LeafEntry.keyBytes).Nodup :=
  List.pairwise_map.mpr (h.imp fun hlt => ne_of_lt hlt)

theorem sorted_iff_keys : l.Pairwise LeafEntry.Before ↔ (l.map LeafEntry.keyBytes).Pairwise (· < ·) := by
  rw [List.pairwise_map]
  exact Iff.rfl

theorem eq_of_keyBytes {a b : LeafEntry K V} (h : l.Pairwise LeafEntry.Before) (ha : a ∈ l)
    (hb : b ∈ l) (hkey : a.keyBytes = b.keyBytes) : a = b :=
  List.inj_on_of_nodup_map (nodup_keys h) ha hb hkey

/-- The search for a key in a list of the same entries. -/
theorem find?_key_of_mem {l' : List (LeafEntry K V)} (h : l.Pairwise LeafEntry.Before)
    (hmem : ∀ x, x ∈ l' ↔ x ∈ l) :
    (l'.find? fun entry => entry.keyBytes = key) = some entry ↔
      entry ∈ l ∧ entry.keyBytes = key := by
  constructor
  · intro hfind
    exact ⟨(hmem entry).mp (List.mem_of_find?_eq_some hfind), by simpa using List.find?_some hfind⟩
  · rintro ⟨hentry, hkey⟩
    cases hfind : l'.find? fun entry => entry.keyBytes = key with
    | none =>
      exact absurd hkey (by simpa using List.find?_eq_none.mp hfind entry ((hmem entry).mpr hentry))
    | some found =>
      have hfound : found.keyBytes = key := by simpa using List.find?_some hfind
      have hfoundmem := (hmem found).mp (List.mem_of_find?_eq_some hfind)
      rw [eq_of_keyBytes h hfoundmem hentry (hfound.trans hkey.symm)]

theorem find?_key (h : l.Pairwise LeafEntry.Before) :
    (l.find? fun entry => entry.keyBytes = key) = some entry ↔
      entry ∈ l ∧ entry.keyBytes = key :=
  find?_key_of_mem h fun _ => Iff.rfl

/-- Two sorted lists with the same entries are equal. -/
theorem eq_of_mem_iff {l' : List (LeafEntry K V)} (h : l.Pairwise LeafEntry.Before)
    (h' : l'.Pairwise LeafEntry.Before) (hmem : ∀ entry, entry ∈ l ↔ entry ∈ l') : l = l' := by
  refine List.Perm.eq_of_pairwise (fun a b _ _ hab hba => ?_) h h' ?_
  · exact absurd hba (not_lt_of_gt hab)
  · exact (List.perm_ext_iff_of_nodup (nodup_keys h).of_map (nodup_keys h').of_map).mpr hmem

/-! ## Lookups -/

theorem Node.Valid.get {node : Node K V} (h : node.Valid path) (hkey : path <+: key.nibbles) :
    node.get key path.length = some entry ↔ entry ∈ node.entries ∧ entry.keyBytes = key := by
  induction h using Node.Valid.induct with
  | leaf path values full sorted below => exact find?_key sorted
  | tree path tree large h ih =>
    rw [TreeContents.node, Node.get]
    cases hindex : key.getIndexForDepth path.length with
    | none =>
      have hend := (MerkleKey.getIndexForDepth_eq_none hkey).mp hindex
      constructor
      · intro hown
        refine ⟨TreeContents.mem_entries.mpr (.inl hown), ?_⟩
        exact MerkleKey.nibbles_injective ((h.ends entry hown).trans hend.symm)
      · rintro ⟨hmem, rfl⟩
        exact (h.mem_own hend).mp hmem
    | some index =>
      have hbranch := (MerkleKey.getIndexForDepth_eq_some hkey).mp hindex
      have hslot : slotGet key (path.length + 1) (tree.branches index) = some entry ↔
          entry ∈ slotEntries (tree.branches index) ∧ entry.keyBytes = key := by
        cases hnode : tree.branches index with
        | none => simp [slotGet]
        | some node =>
          have := ih index node hnode hbranch
          rwa [List.length_append, List.length_singleton] at this
      rw [hslot]
      constructor
      · rintro ⟨hmem, rfl⟩
        exact ⟨(h.mem_slot hbranch).mpr hmem, rfl⟩
      · rintro ⟨hmem, rfl⟩
        exact ⟨(h.mem_slot hbranch).mp hmem, rfl⟩

/-! ## Changes of one branch -/

/-- The tree with another branch at `i`. -/
def TreeContents.setBranch (tree : TreeContents K V) (i : Nibble) (slot : Option (Node K V))
    (len : Nat) : TreeContents K V :=
  ⟨len, tree.leaf, Function.update tree.branches i slot⟩

theorem TreeContents.Valid.setBranch {tree : TreeContents K V} (h : tree.Valid path) {i : Nibble}
    {slot : Option (Node K V)} {len : Nat}
    (hslot : ∀ node, slot = some node → node.Valid (path ++ [i]) ∧ node.isEmpty = false)
    (hlen : len + slotLen (tree.branches i) = tree.len + slotLen slot) :
    (tree.setBranch i slot len).Valid path := by
  refine ⟨?_, h.ends, fun j node hnode => ?_, fun j node hnode => ?_⟩
  · have hcount := h.count
    simp only [childrenLen] at hcount ⊢
    have hlens : ∀ j, slotLen (Function.update tree.branches i slot j) =
        Function.update (fun j => slotLen (tree.branches j)) i (slotLen slot) j :=
      Function.apply_update (fun _ => slotLen) tree.branches i slot
    have hnew := Finset.sum_update_of_mem (Finset.mem_univ i) (fun j => slotLen (tree.branches j))
      (slotLen slot)
    have hold := Finset.sum_eq_add_sum_sdiff_singleton_of_mem (Finset.mem_univ i)
      fun j => slotLen (tree.branches j)
    simp only [TreeContents.setBranch, hlens]
    omega
  · by_cases hj : j = i
    · subst hj
      exact (hslot node (by simpa [TreeContents.setBranch] using hnode)).1
    · exact h.children j node (by simpa [TreeContents.setBranch, hj] using hnode)
  · by_cases hj : j = i
    · subst hj
      exact (hslot node (by simpa [TreeContents.setBranch] using hnode)).2
    · exact h.nonempty j node (by simpa [TreeContents.setBranch, hj] using hnode)

/-- Only the entries below the branch change. -/
theorem TreeContents.Valid.mem_setBranch {tree : TreeContents K V} (h : tree.Valid path)
    {i : Nibble} {slot : Option (Node K V)} {len : Nat}
    (hslot : ∀ node, slot = some node → node.Valid (path ++ [i])) :
    entry ∈ (tree.setBranch i slot len).entries ↔
      if path ++ [i] <+: entry.keyBytes.nibbles then entry ∈ slotEntries slot
      else entry ∈ tree.entries := by
  rw [TreeContents.mem_entries]
  simp only [TreeContents.setBranch]
  constructor
  · rintro (hown | ⟨j, hj⟩)
    · rw [if_neg (not_branch_of_end (h.ends entry hown) i)]
      exact TreeContents.mem_entries.mpr (.inl hown)
    · by_cases hij : j = i
      · subst hij
        rw [Function.update_self] at hj
        obtain ⟨node, hnode, hmem⟩ := mem_slotEntries.mp hj
        rwa [if_pos ((hslot node hnode).begins entry hmem)]
      · rw [Function.update_of_ne hij] at hj
        rw [if_neg fun hi => hij (branch_unique (h.begins_slot hj) hi)]
        exact TreeContents.mem_entries.mpr (.inr ⟨j, hj⟩)
  · split
    next hi => exact fun hmem => .inr ⟨i, by rwa [Function.update_self]⟩
    next hi =>
      intro hmem
      rcases TreeContents.mem_entries.mp hmem with hown | ⟨j, hj⟩
      · exact .inl hown
      · have hij : j ≠ i := fun hij => hi (hij ▸ h.begins_slot hj)
        exact .inr ⟨j, by rwa [Function.update_of_ne hij]⟩

/-! ## Insertions -/

/-- What an insertion does to the entries of a node, with what it returns. -/
structure Inserted (entry : LeafEntry K V) (l l' : List (LeafEntry K V)) (old : Option (K × V)) :
    Prop where
  mem : ∀ x, x ∈ l' ↔ x = entry ∨ x ∈ l ∧ x.keyBytes ≠ entry.keyBytes
  length : l'.length = l.length + if old.isNone then 1 else 0
  fresh : old = none → ∀ x ∈ l, x.keyBytes ≠ entry.keyBytes
  replaced : ∀ pair, old = some pair → ∃ x ∈ l, x.keyBytes = entry.keyBytes ∧ x.pair = pair

namespace LeafContents

theorem replace_eq_some {values : List (LeafEntry K V)} {oldEntry : LeafEntry K V}
    (h : replace entry l = some (values, oldEntry)) :
    oldEntry.keyBytes = entry.keyBytes ∧
      ∃ before after, l = before ++ oldEntry :: after ∧ values = before ++ entry :: after := by
  induction l generalizing values with
  | nil => cases h
  | cons x l ih =>
    unfold replace at h
    split at h
    next hkey =>
      obtain ⟨rfl, rfl⟩ := Prod.mk.inj (Option.some.inj h)
      exact ⟨hkey, [], l, rfl, rfl⟩
    next =>
      simp only [Option.bind_eq_bind, Option.bind_eq_some_iff, Option.pure_def] at h
      obtain ⟨⟨values', oldEntry'⟩, hrest, heq⟩ := h
      obtain ⟨rfl, rfl⟩ := Prod.mk.inj (Option.some.inj heq)
      obtain ⟨hkey, before, after, rfl, rfl⟩ := ih hrest
      exact ⟨hkey, x :: before, after, rfl, rfl⟩

theorem replace_eq_none (h : replace entry l = none) : ∀ x ∈ l, x.keyBytes ≠ entry.keyBytes := by
  induction l with
  | nil => exact fun _ hx => nomatch hx
  | cons x l ih =>
    unfold replace at h
    split at h
    next => cases h
    next hkey =>
      have hrest : replace entry l = none := by
        cases hrest : replace entry l with
        | none => rfl
        | some p => simp [hrest] at h
      exact List.forall_mem_cons.mpr ⟨hkey, ih hrest⟩

/-- The entry takes the place of another one with its key. -/
theorem inserted_of_replace {values : List (LeafEntry K V)} {oldEntry : LeafEntry K V}
    (hsorted : l.Pairwise LeafEntry.Before) (h : replace entry l = some (values, oldEntry)) :
    values.Pairwise LeafEntry.Before ∧ Inserted entry l values (some oldEntry.pair) := by
  obtain ⟨hkey, before, after, rfl, rfl⟩ := replace_eq_some h
  have hkeys : (before ++ entry :: after).map LeafEntry.keyBytes =
      (before ++ oldEntry :: after).map LeafEntry.keyBytes := by
    simp [hkey]
  have hsorted' : (before ++ entry :: after).Pairwise LeafEntry.Before := by
    rw [sorted_iff_keys, hkeys]
    exact sorted_iff_keys.mp hsorted
  refine ⟨hsorted', fun x => ?_, by simp, fun hnone => (nomatch hnone), fun pair hpair => ?_⟩
  · constructor
    · intro hx
      by_cases hentry : x = entry
      · exact .inl hentry
      · refine .inr ⟨?_, fun hkey' => hentry (eq_of_keyBytes hsorted' hx (by simp) hkey')⟩
        simp only [List.mem_append, List.mem_cons, hentry, false_or] at hx
        rcases hx with hx | hx <;> simp [hx]
    · rintro (rfl | ⟨hx, hne⟩)
      · simp
      · have hold : x ≠ oldEntry := fun hold => hne (hold ▸ hkey)
        simp only [List.mem_append, List.mem_cons, hold, false_or] at hx
        rcases hx with hx | hx <;> simp [hx]
  · exact ⟨oldEntry, by simp, hkey, Option.some.inj hpair⟩

theorem inserted_of_sort (hsorted : l.Pairwise LeafEntry.Before)
    (hfresh : ∀ x ∈ l, x.keyBytes ≠ entry.keyBytes) :
    (sort (l ++ [entry])).Pairwise LeafEntry.Before ∧
      Inserted entry l (sort (l ++ [entry])) none := by
  have hperm : (sort (l ++ [entry])).Perm (l ++ [entry]) := List.mergeSort_perm _ _
  have hnodup : ((l ++ [entry]).map LeafEntry.keyBytes).Nodup := by
    rw [List.map_append, List.nodup_append]
    refine ⟨nodup_keys hsorted, by simp, ?_⟩
    simpa using hfresh
  refine ⟨?_, fun x => ?_, by simp [hperm.length_eq], fun _ => hfresh, fun _ h => nomatch h⟩
  · have hle : (sort (l ++ [entry])).Pairwise fun x y => x.keyBytes ≤ y.keyBytes := by
      refine (List.pairwise_mergeSort (fun a b c hab hbc => ?_) (fun a b => ?_) _).imp
        fun h => of_decide_eq_true h
      · exact decide_eq_true (le_trans (of_decide_eq_true hab) (of_decide_eq_true hbc))
      · simpa using le_total a.keyBytes b.keyBytes
    have hne : (sort (l ++ [entry])).Pairwise fun x y => x.keyBytes ≠ y.keyBytes :=
      List.pairwise_map.mp ((hperm.map LeafEntry.keyBytes).nodup_iff.mpr hnodup)
    exact (hle.and hne).imp fun h => lt_of_le_of_ne h.1 h.2
  · rw [hperm.mem_iff, List.mem_append, List.mem_singleton]
    constructor
    · rintro (hx | hx)
      · exact .inr ⟨hx, hfresh x hx⟩
      · exact .inl hx
    · rintro (hx | ⟨hx, -⟩)
      · exact .inr hx
      · exact .inl hx

end LeafContents

/-- The key is short enough for the depth of its node to be a `u16`. -/
def MerkleKey.Fits (key : MerkleKey) : Prop := key.nibbles.length ≤ maxDepth

/-- A leaf on the last level has room for the keys that lead to it. -/
def Roomy (keys : Finset MerkleKey) : Prop :=
  ∀ start : List Nibble, start.length = maxDepth →
    (keys.filter fun key => start <+: key.nibbles).card ≤ 16

theorem Roomy.mono {keys keys' : Finset MerkleKey} (h : Roomy keys') (hsubset : keys ⊆ keys') :
    Roomy keys := fun start hstart =>
  (Finset.card_le_card (Finset.filter_subset_filter _ hsubset)).trans (h start hstart)

theorem roomy_of_card {keys : Finset MerkleKey} (h : keys.card ≤ 16) : Roomy keys :=
  fun _ _ => (Finset.card_filter_le _ _).trans h

/-- No key ends on the last level, as a key has an even number of nibbles. -/
theorem length_nibbles_ne (key : MerkleKey) : key.nibbles.length ≠ maxDepth := by
  rw [MerkleKey.length_nibbles, maxDepth]
  omega

theorem roomy_of_fits {keys : Finset MerkleKey} (h : ∀ key ∈ keys, key.Fits) : Roomy keys := by
  intro start hstart
  rw [Finset.card_eq_zero.mpr (Finset.filter_eq_empty_iff.mpr fun key hkey hpre => ?_)]
  · exact Nat.zero_le _
  · have hle : start.length ≤ key.nibbles.length := hpre.length_le
    exact length_nibbles_ne key (le_antisymm (h key hkey) (hstart ▸ hle))

/-- A key that ends above the last level needs no room there. -/
theorem roomy_insert_of_not {keys : Finset MerkleKey} (h : Roomy keys)
    (hkey : ∀ start : List Nibble, start.length = maxDepth → start <+: key.nibbles →
      ((insert key keys).filter fun key => start <+: key.nibbles).card ≤ 16) :
    Roomy (insert key keys) := by
  intro start hstart
  by_cases hpre : start <+: key.nibbles
  · exact hkey start hstart hpre
  · rw [Finset.filter_insert, if_neg hpre]
    exact h start hstart

/-- The keys of some entries. -/
def keysOf (l : List (LeafEntry K V)) : Finset MerkleKey := (l.map LeafEntry.keyBytes).toFinset

theorem mem_keysOf : key ∈ keysOf l ↔ ∃ x ∈ l, x.keyBytes = key := by
  rw [keysOf, List.mem_toFinset, List.mem_map]

@[simp] theorem keysOf_nil : keysOf ([] : List (LeafEntry K V)) = ∅ := rfl

@[simp] theorem keysOf_cons : keysOf (entry :: l) = insert entry.keyBytes (keysOf l) := by
  simp [keysOf]

theorem card_keysOf_le : (keysOf l).card ≤ l.length :=
  (List.toFinset_card_le _).trans (List.length_map _).le

theorem card_keysOf (h : l.Pairwise LeafEntry.Before) : (keysOf l).card = l.length :=
  (List.toFinset_card_of_nodup (nodup_keys h)).trans (List.length_map _)

theorem Inserted.keysOf_eq {l' : List (LeafEntry K V)} {old : Option (K × V)}
    (h : Inserted entry l l' old) : keysOf l' = insert entry.keyBytes (keysOf l) := by
  ext key
  rw [Finset.mem_insert, mem_keysOf, mem_keysOf]
  constructor
  · rintro ⟨x, hx, rfl⟩
    rcases (h.mem x).mp hx with rfl | ⟨hx, -⟩
    · exact .inl rfl
    · exact .inr ⟨x, hx, rfl⟩
  · rintro (rfl | ⟨x, hx, rfl⟩)
    · exact ⟨entry, (h.mem entry).mpr (.inl rfl), rfl⟩
    · by_cases hkey : x.keyBytes = entry.keyBytes
      · exact ⟨entry, (h.mem entry).mpr (.inl rfl), hkey.symm⟩
      · exact ⟨x, (h.mem x).mpr (.inr ⟨hx, hkey⟩), rfl⟩

/-- There is room for one more entry. -/
abbrev RoomFor (entry : LeafEntry K V) (l : List (LeafEntry K V)) : Prop :=
  Roomy (insert entry.keyBytes (keysOf l))

theorem Inserted.roomFor_iff {l' : List (LeafEntry K V)} {old : Option (K × V)}
    (h : Inserted entry l l' old) : Roomy (keysOf l') ↔ RoomFor entry l := by
  rw [RoomFor, h.keysOf_eq]

/-- An insertion into a tree at the path keeps the invariant of the tree and inserts the entry, or
panics where there is no room on the last level. -/
def TreeInserts (path : List Nibble)
    (treeInsert : LeafEntry K V → TreeContents K V → Option (TreeContents K V × Option (K × V))) :
    Prop :=
  ∀ entry tree, tree.Valid path → path <+: entry.keyBytes.nibbles → Roomy (keysOf tree.entries) →
    (RoomFor entry tree.entries →
      ∃ tree' old, treeInsert entry tree = some (tree', old) ∧ tree'.Valid path ∧
        Inserted entry tree.entries tree'.entries old) ∧
    (¬RoomFor entry tree.entries → treeInsert entry tree = none)

/-- The same of an insertion into a node. -/
def NodeInserts (path : List Nibble)
    (nodeInsert : LeafEntry K V → Node K V → Option (Node K V × Option (K × V))) : Prop :=
  ∀ entry node, node.Valid path → path <+: entry.keyBytes.nibbles → Roomy (keysOf node.entries) →
    (RoomFor entry node.entries →
      ∃ node' old, nodeInsert entry node = some (node', old) ∧ node'.Valid path ∧
        Inserted entry node.entries node'.entries old) ∧
    (¬RoomFor entry node.entries → nodeInsert entry node = none)

section Insert

variable {treeInsert : LeafEntry K V → TreeContents K V → Option (TreeContents K V × Option (K × V))}

theorem Inserted.fits {l' : List (LeafEntry K V)} {old : Option (K × V)}
    (h : Inserted entry l l' old) (hentry : entry.keyBytes.Fits) (hl : ∀ x ∈ l, x.keyBytes.Fits) :
    ∀ x ∈ l', x.keyBytes.Fits := by
  intro x hx
  rcases (h.mem x).mp hx with rfl | ⟨hx, -⟩
  · exact hentry
  · exact hl x hx

/-- A full leaf moves to a tree that does not have its keys, if there is room for all. -/
theorem LeafContents.moveTo_spec (hinsert : TreeInserts path treeInsert)
    {values : List (LeafEntry K V)} {tree : TreeContents K V} (htree : tree.Valid path)
    (hroomy : Roomy (keysOf tree.entries)) (hsorted : values.Pairwise LeafEntry.Before)
    (hbelow : ∀ x ∈ values, path <+: x.keyBytes.nibbles)
    (hnew : ∀ x ∈ values, ∀ y ∈ tree.entries, y.keyBytes ≠ x.keyBytes) :
    (Roomy (keysOf values ∪ keysOf tree.entries) →
      ∃ tree', moveTo treeInsert values tree = some tree' ∧ tree'.Valid path ∧
        (∀ x, x ∈ tree'.entries ↔ x ∈ values ∨ x ∈ tree.entries) ∧
        tree'.len = tree.len + values.length) ∧
    (¬Roomy (keysOf values ∪ keysOf tree.entries) → moveTo treeInsert values tree = none) := by
  induction values generalizing tree with
  | nil =>
    refine ⟨fun _ => ⟨tree, rfl, htree, by simp, rfl⟩, fun h => absurd hroomy ?_⟩
    simpa using h
  | cons x values ih =>
    obtain ⟨hx, hsorted⟩ := List.pairwise_cons.mp hsorted
    obtain ⟨hbelowx, hbelow⟩ := List.forall_mem_cons.mp hbelow
    obtain ⟨hnewx, hnew⟩ := List.forall_mem_cons.mp hnew
    obtain ⟨hroom, hfull⟩ := hinsert x tree htree hbelowx hroomy
    rw [keysOf_cons, Finset.insert_union, ← Finset.union_insert]
    by_cases hroomyx : RoomFor x tree.entries
    · obtain ⟨tree₁, old, hrun, htree₁, hinserted⟩ := hroom hroomyx
      obtain rfl : old = none := by
        cases old with
        | none => rfl
        | some pair =>
          obtain ⟨y, hy, hkey, -⟩ := hinserted.replaced pair rfl
          exact absurd hkey (hnewx y hy)
      have hmove : moveTo treeInsert (x :: values) tree = moveTo treeInsert values tree₁ := by
        simp only [moveTo, hrun, Option.bind_eq_bind, Option.bind_some, Option.isNone_none, if_true]
      rw [hmove, ← hinserted.keysOf_eq]
      obtain ⟨hok, hnone⟩ := ih htree₁ (hinserted.keysOf_eq ▸ hroomyx) hsorted hbelow
        fun y hy z hz => by
          rcases (hinserted.mem z).mp hz with rfl | ⟨hz, -⟩
          · exact ne_of_lt (hx y hy)
          · exact hnew y hy z hz
      refine ⟨fun hroomy' => ?_, hnone⟩
      obtain ⟨tree', hrest, htree', hmem, hlen⟩ := hok hroomy'
      refine ⟨tree', hrest, htree', fun y => ?_, ?_⟩
      · rw [hmem, hinserted.mem, List.mem_cons]
        constructor
        · rintro (hy | rfl | ⟨hy, -⟩)
          · exact .inl (.inr hy)
          · exact .inl (.inl rfl)
          · exact .inr hy
        · rintro ((rfl | hy) | hy)
          · exact .inr (.inl rfl)
          · exact .inl hy
          · exact .inr (.inr ⟨hy, hnewx y hy⟩)
      · have := hinserted.length
        rw [← htree₁.len_entries, ← htree.len_entries] at this
        simp only [Option.isNone_none, if_true] at this
        rw [hlen, this, List.length_cons]
        omega
    · refine ⟨fun hroomy' => absurd (hroomy'.mono Finset.subset_union_right) hroomyx, fun _ => ?_⟩
      simp only [moveTo, hfull hroomyx, Option.bind_eq_bind, Option.bind_none]

/-- The insertion into a leaf that has the key, or that is not full. -/
theorem LeafContents.insert_of_room (hfull : l.length ≤ 16) (hsorted : l.Pairwise LeafEntry.Before)
    (hbelow : ∀ x ∈ l, path <+: x.keyBytes.nibbles) (hentry : path <+: entry.keyBytes.nibbles)
    (hroom : (∃ x ∈ l, x.keyBytes = entry.keyBytes) ∨ l.length < 16) :
    RoomFor entry l ∧
    ∃ node old, LeafContents.insert treeInsert entry l = some (node, old) ∧ node.Valid path ∧
      Inserted entry l node.entries old := by
  unfold LeafContents.insert
  cases hreplace : replace entry l with
  | some p =>
    obtain ⟨values, oldEntry⟩ := p
    obtain ⟨hsorted', hinserted⟩ := inserted_of_replace hsorted hreplace
    have hlength : values.length ≤ 16 := by
      rw [hinserted.length]
      simpa using hfull
    refine ⟨hinserted.roomFor_iff.mp (roomy_of_card (card_keysOf_le.trans hlength)),
      .leaf values, some oldEntry.pair, rfl, .leaf hlength hsorted' ?_, hinserted⟩
    intro x hx
    rcases (hinserted.mem x).mp hx with rfl | ⟨hx, -⟩
    · exact hentry
    · exact hbelow x hx
  | none =>
    have hfresh := replace_eq_none hreplace
    have hlt : l.length < 16 := hroom.resolve_left fun ⟨x, hx, hkey⟩ => hfresh x hx hkey
    obtain ⟨hsorted', hinserted⟩ := inserted_of_sort hsorted hfresh
    have hlength : (sort (l ++ [entry])).length ≤ 16 := by
      rw [hinserted.length, Option.isNone_none, if_pos rfl]
      omega
    refine ⟨hinserted.roomFor_iff.mp (roomy_of_card (card_keysOf_le.trans hlength)),
      .leaf (sort (l ++ [entry])), none, if_pos hlt, .leaf hlength hsorted' ?_, hinserted⟩
    intro x hx
    rcases (hinserted.mem x).mp hx with rfl | ⟨hx, -⟩
    · exact hentry
    · exact hbelow x hx

/-- The insertion into a full leaf: all its entries move to a new tree, after the new one. -/
theorem LeafContents.insert_of_full (hinsert : TreeInserts path treeInsert) (hfull : l.length = 16)
    (hsorted : l.Pairwise LeafEntry.Before) (hbelow : ∀ x ∈ l, path <+: x.keyBytes.nibbles)
    (hentry : path <+: entry.keyBytes.nibbles) (hfresh : ∀ x ∈ l, x.keyBytes ≠ entry.keyBytes) :
    (RoomFor entry l →
      ∃ node old, LeafContents.insert treeInsert entry l = some (node, old) ∧ node.Valid path ∧
        Inserted entry l node.entries old) ∧
    (¬RoomFor entry l →
      LeafContents.insert treeInsert entry l = none) := by
  have hreplace : replace entry l = none := by
    cases hreplace : replace entry l with
    | none => rfl
    | some p =>
      obtain ⟨hkey, before, after, rfl, -⟩ := replace_eq_some hreplace
      exact absurd hkey (hfresh _ (by simp))
  have hroomy₁ : RoomFor entry (TreeContents.new : TreeContents K V).entries := by
    refine roomy_of_card ?_
    simp
  obtain ⟨tree₁, old, hrun, htree₁, hinserted⟩ :=
    (hinsert entry .new TreeContents.valid_new hentry (roomy_of_card (by simp))).1 hroomy₁
  have hmem₁ : ∀ x, x ∈ tree₁.entries ↔ x = entry := fun x => by
    rw [hinserted.mem]
    simp
  have hkeys₁ : keysOf tree₁.entries = {entry.keyBytes} := by
    rw [hinserted.keysOf_eq]
    simp
  obtain ⟨hok, hnone⟩ := moveTo_spec hinsert htree₁ (hinserted.keysOf_eq ▸ hroomy₁) hsorted hbelow
    fun x hx y hy => (hmem₁ y).mp hy ▸ (hfresh x hx).symm
  rw [hkeys₁, Finset.union_comm, Finset.singleton_union] at hok hnone
  have hrun' : LeafContents.insert treeInsert entry l =
      (moveTo treeInsert l tree₁).map fun tree => (tree.node, none) := by
    unfold LeafContents.insert
    simp only [hreplace, if_neg (show ¬l.length < 16 by omega), hrun, Option.bind_eq_bind,
      Option.bind_some, Option.pure_def]
    cases moveTo treeInsert l tree₁ <;> rfl
  rw [hrun']
  refine ⟨fun hroomy => ?_, fun hroomy => by rw [hnone hroomy]; rfl⟩
  obtain ⟨tree', hmove, htree', hmem, hlen⟩ := hok hroomy
  have hlen₁ : tree₁.len = 1 := by
    have hlength := hinserted.length
    cases old with
    | none => rw [htree₁.len_entries, hlength]; simp
    | some pair =>
      obtain ⟨x, hx, -⟩ := hinserted.replaced pair rfl
      simp at hx
  have hlarge : 16 < tree'.len := by omega
  refine ⟨tree'.node, none, by rw [hmove]; rfl, Node.valid_tree.mpr ⟨hlarge, htree'⟩, ?_⟩
  refine ⟨fun x => ?_, ?_, fun _ => hfresh, fun _ h => nomatch h⟩
  · change x ∈ tree'.entries ↔ _
    rw [hmem, hmem₁]
    constructor
    · rintro (hx | rfl)
      · exact .inr ⟨hx, hfresh x hx⟩
      · exact .inl rfl
    · rintro (rfl | ⟨hx, -⟩)
      · exact .inr rfl
      · exact .inl hx
  · change tree'.entries.length = _
    rw [← htree'.len_entries, hlen, hlen₁, Option.isNone_none, if_pos rfl, Nat.add_comm]

/-- The insertion of an entry into a node at the path. -/
theorem Node.insertWith_spec (hinsert : TreeInserts path treeInsert) :
    NodeInserts path (Node.insertWith treeInsert) := by
  intro entry node h hentry hroomy
  cases h using Node.Valid.induct with
  | leaf path values full sorted below =>
    by_cases hroom : (∃ x ∈ values, x.keyBytes = entry.keyBytes) ∨ values.length < 16
    · obtain ⟨hroomy', hrun⟩ := LeafContents.insert_of_room full sorted
        below hentry hroom
      exact ⟨fun _ => hrun, fun h => absurd hroomy' h⟩
    · obtain ⟨hfresh, hlt⟩ := not_or.mp hroom
      exact LeafContents.insert_of_full hinsert (le_antisymm full (not_lt.mp hlt)) sorted below hentry
        fun x hx hkey => hfresh ⟨x, hx, hkey⟩
  | tree path tree large h _ =>
    have hrun : tree.node.insertWith treeInsert entry =
        (treeInsert entry tree).map fun result => (result.1.node, result.2) := by
      change (treeInsert entry tree >>= _) = _
      cases treeInsert entry tree <;> rfl
    obtain ⟨hok, hnone⟩ := hinsert entry tree h hentry hroomy
    rw [hrun]
    refine ⟨fun hroomy' => ?_, fun hroomy' => by rw [hnone hroomy']; rfl⟩
    obtain ⟨tree', old, hresult, htree', hinserted⟩ := hok hroomy'
    refine ⟨tree'.node, old, by rw [hresult]; rfl, Node.valid_tree.mpr ⟨?_, htree'⟩, hinserted⟩
    have := hinserted.length
    rw [← htree'.len_entries, ← h.len_entries] at this
    omega

theorem Inserted.isEmpty {node : Node K V} {old : Option (K × V)}
    (h : Inserted entry l node.entries old) : node.isEmpty = false := by
  cases node with
  | tree => rfl
  | leaf values =>
    have : entry ∈ values := (h.mem entry).mpr (.inl rfl)
    exact List.isEmpty_eq_false_iff.mpr (List.ne_nil_of_mem this)

/-- The entry whose key ends at the path. -/
theorem TreeContents.insert_end {tree : TreeContents K V} (h : tree.Valid path)
    (hend : entry.keyBytes.nibbles = path) :
    (TreeContents.mk (if tree.leaf.isNone then tree.len + 1 else tree.len) (some entry)
      tree.branches).Valid path ∧
    Inserted entry tree.entries
      (TreeContents.mk (if tree.leaf.isNone then tree.len + 1 else tree.len) (some entry)
        tree.branches).entries (tree.leaf.map LeafEntry.pair) := by
  have hother : ∀ i, ∀ x ∈ slotEntries (tree.branches i), x.keyBytes ≠ entry.keyBytes :=
    fun i x hx hkey => not_branch_of_end hend i (hkey ▸ h.begins_slot hx)
  refine ⟨⟨?_, ?_, h.children, h.nonempty⟩, fun x => ?_, ?_, fun hnone x hx => ?_, fun pair hpair => ?_⟩
  · have hcount := h.count
    simp only [childrenLen] at hcount ⊢
    cases hleaf : tree.leaf <;> simp [hleaf] at hcount ⊢ <;> omega
  · rintro x hx
    obtain rfl := Option.some.inj hx
    exact hend
  · rw [TreeContents.mem_entries, TreeContents.mem_entries]
    constructor
    · rintro (hx | ⟨i, hx⟩)
      · exact .inl (Option.some.inj hx).symm
      · exact .inr ⟨.inr ⟨i, hx⟩, hother i x hx⟩
    · rintro (rfl | ⟨hx | ⟨i, hx⟩, hne⟩)
      · exact .inl rfl
      · exact absurd (MerkleKey.nibbles_injective ((h.ends x hx).trans hend.symm)) hne
      · exact .inr ⟨i, hx⟩
  · rw [TreeContents.entries_eq, TreeContents.entries_eq, List.length_append, List.length_append]
    cases tree.leaf <;> simp; omega
  · rcases TreeContents.mem_entries.mp hx with hx | ⟨i, hx⟩
    · simp [hx] at hnone
    · exact hother i x hx
  · obtain ⟨x, hx, hpair⟩ := Option.map_eq_some_iff.mp hpair
    exact ⟨x, TreeContents.mem_entries.mpr (.inl hx),
      MerkleKey.nibbles_injective ((h.ends x hx).trans hend.symm), hpair⟩

/-- What happens in the branch of the entry happens in the tree. -/
theorem Inserted.setBranch {tree : TreeContents K V} (h : tree.Valid path) {i : Nibble}
    {branch : Node K V} {old : Option (K × V)} (hi : path ++ [i] <+: entry.keyBytes.nibbles)
    (hvalid : branch.Valid (path ++ [i]))
    (hinserted : Inserted entry (slotEntries (tree.branches i)) branch.entries old) :
    (tree.setBranch i (some branch) (if old.isNone then tree.len + 1 else tree.len)).Valid path ∧
    Inserted entry tree.entries
      (tree.setBranch i (some branch) (if old.isNone then tree.len + 1 else tree.len)).entries
      old := by
  have hlength := hinserted.length
  rw [← hvalid.len_eq, ← h.slotLen_eq] at hlength
  have hvalid' : (tree.setBranch i (some branch)
      (if old.isNone then tree.len + 1 else tree.len)).Valid path := by
    refine h.setBranch (fun node hnode => ?_) ?_
    · obtain rfl := Option.some.inj hnode
      exact ⟨hvalid, hinserted.isEmpty⟩
    · change (if old.isNone then tree.len + 1 else tree.len) + slotLen (tree.branches i) =
        tree.len + branch.len
      rw [hlength]
      split <;> omega
  have hmem : ∀ x, x ∈ (tree.setBranch i (some branch)
      (if old.isNone then tree.len + 1 else tree.len)).entries ↔ _ := fun x =>
    h.mem_setBranch fun node hnode => Option.some.inj hnode ▸ hvalid
  refine ⟨hvalid', fun x => ?_, ?_, fun hnone x hx hkey => ?_, fun pair hpair => ?_⟩
  · rw [hmem]
    split
    next hx => rw [h.mem_slot hx, slotEntries_some, hinserted.mem]
    next hx =>
      have hkey : x.keyBytes ≠ entry.keyBytes := fun hkey => hx (hkey ▸ hi)
      constructor
      · exact fun hmem => .inr ⟨hmem, hkey⟩
      · rintro (rfl | ⟨hmem, -⟩)
        · exact absurd rfl hkey
        · exact hmem
  · rw [← hvalid'.len_entries, ← h.len_entries]
    simp only [TreeContents.setBranch]
    split <;> simp_all
  · exact hinserted.fresh hnone x ((h.mem_slot (hkey ▸ hi)).mp hx) hkey
  · obtain ⟨x, hx, hkey, hpair⟩ := hinserted.replaced pair hpair
    exact ⟨x, (h.mem_slot (hkey ▸ hi)).mpr hx, hkey, hpair⟩

/-- On the last level there is room for one leaf. -/
theorem Node.insertWith_last (hpath : path.length = maxDepth) :
    NodeInserts (K := K) (V := V) path (Node.insertWith (TreeContents.insert 0)) := by
  intro entry node h hentry hroomy
  -- All keys lead to the node.
  have hfilter {keys : Finset MerkleKey} (h : ∀ key ∈ keys, path <+: key.nibbles) :
      keys.filter (fun key => path <+: key.nibbles) = keys := Finset.filter_true_of_mem h
  cases h using Node.Valid.induct with
  | leaf path values full sorted below =>
    by_cases hroom : (∃ x ∈ values, x.keyBytes = entry.keyBytes) ∨ values.length < 16
    · obtain ⟨hroomy', hrun⟩ := LeafContents.insert_of_room full sorted below hentry
        hroom
      exact ⟨fun _ => hrun, fun h => absurd hroomy' h⟩
    · obtain ⟨hfresh, hlt⟩ := not_or.mp hroom
      have hnew : entry.keyBytes ∉ keysOf values := fun h => hfresh (mem_keysOf.mp h)
      refine ⟨fun hroomy' => ?_, fun _ => ?_⟩
      · have hcard := hroomy' path hpath
        simp only [Node.entries_leaf] at hcard
        rw [hfilter, Finset.card_insert_of_notMem hnew, card_keysOf sorted] at hcard
        · omega
        · intro key hkey
          rcases Finset.mem_insert.mp hkey with rfl | hkey
          · exact hentry
          · obtain ⟨x, hx, rfl⟩ := mem_keysOf.mp hkey
            exact below x hx
      · have hreplace : LeafContents.replace entry values = none := by
          cases hreplace : LeafContents.replace entry values with
          | none => rfl
          | some p =>
            obtain ⟨hkey, before, after, rfl, -⟩ := LeafContents.replace_eq_some hreplace
            exact absurd ⟨_, by simp, hkey⟩ hfresh
        have hinsert : TreeContents.insert 0 entry (.new : TreeContents K V) = none := by
          have hdepth : maxDepth - 0 = path.length := by omega
          unfold TreeContents.insert
          rw [hdepth]
          cases hindex : entry.keyBytes.getIndexForDepth path.length with
          | none =>
            have hend := (MerkleKey.getIndexForDepth_eq_none hentry).mp hindex
            exact absurd (hend ▸ hpath) (length_nibbles_ne _)
          | some index => rfl
        change LeafContents.insert _ entry values = none
        unfold LeafContents.insert
        simp only [hreplace, if_neg hlt, hinsert, Option.bind_eq_bind, Option.bind_none]
  | tree path tree large h _ =>
    -- A tree on this level would have more entries than there is room for.
    have hcard := hroomy path hpath
    change ((keysOf tree.entries).filter _).card ≤ 16 at hcard
    rw [hfilter, card_keysOf h.sorted, ← h.len_entries] at hcard
    · omega
    · intro key hkey
      obtain ⟨x, hx, rfl⟩ := mem_keysOf.mp hkey
      exact h.begins hx

/-- Whether there is room for a key is decided in its branch. -/
theorem TreeContents.Valid.roomy_slot {tree : TreeContents K V} (h : tree.Valid path) {i : Nibble}
    (hi : path ++ [i] <+: entry.keyBytes.nibbles) (hpath : path.length < maxDepth)
    (hroomy : Roomy (keysOf tree.entries)) :
    RoomFor entry (slotEntries (tree.branches i)) ↔ RoomFor entry tree.entries := by
  constructor
  · intro hslot
    refine roomy_insert_of_not hroomy fun start hstart hpre => ?_
    have hbelow : path ++ [i] <+: start :=
      List.prefix_of_prefix_length_le hi hpre (by simp; omega)
    refine (Finset.card_le_card fun key' hkey' => ?_).trans (hslot start hstart)
    obtain ⟨hmem, hstart'⟩ := Finset.mem_filter.mp hkey'
    refine Finset.mem_filter.mpr ⟨Finset.mem_insert.mpr ?_, hstart'⟩
    refine (Finset.mem_insert.mp hmem).imp_right fun hmem => ?_
    obtain ⟨x, hx, rfl⟩ := mem_keysOf.mp hmem
    exact mem_keysOf.mpr ⟨x, (h.mem_slot (hbelow.trans hstart')).mp hx, rfl⟩
  · refine fun h' => h'.mono (Finset.insert_subset_insert _ fun key' hkey' => ?_)
    obtain ⟨x, hx, rfl⟩ := mem_keysOf.mp hkey'
    exact mem_keysOf.mpr ⟨x, TreeContents.mem_entries.mpr (.inr ⟨i, hx⟩), rfl⟩

/-- An insertion into a tree goes on in a branch, one level below. -/
theorem TreeContents.insert_spec {room : Nat} (hroom : path.length + (room + 1) = maxDepth)
    (ih : ∀ index, NodeInserts (K := K) (V := V) (path ++ [index])
      (Node.insertWith (TreeContents.insert room))) :
    TreeInserts (K := K) (V := V) path (TreeContents.insert (room + 1)) := by
  intro entry tree h hentry hroomy
  have hdepth : maxDepth - (room + 1) = path.length := by omega
  unfold TreeContents.insert
  rw [hdepth]
  cases hindex : entry.keyBytes.getIndexForDepth path.length with
  | none =>
    have hend := (MerkleKey.getIndexForDepth_eq_none hentry).mp hindex
    obtain ⟨hvalid, hinserted⟩ := insert_end h hend
    refine ⟨fun _ => ⟨_, _, rfl, hvalid, hinserted⟩, fun h => absurd ?_ h⟩
    refine roomy_insert_of_not hroomy fun start hstart hpre => ?_
    have := hpre.length_le
    rw [hend] at this
    omega
  | some index =>
    have hbranch := (MerkleKey.getIndexForDepth_eq_some hentry).mp hindex
    have hcurrent : ((tree.branches index).getD .default).Valid (path ++ [index]) := by
      cases hnode : tree.branches index with
      | none => exact Node.valid_default
      | some node => exact h.children index node hnode
    have hentries : ((tree.branches index).getD .default).entries =
        slotEntries (tree.branches index) := by
      cases tree.branches index <;> rfl
    have hroomy' : Roomy (keysOf (slotEntries (tree.branches index))) := hroomy.mono fun key hkey => by
      obtain ⟨x, hx, rfl⟩ := mem_keysOf.mp hkey
      exact mem_keysOf.mpr ⟨x, TreeContents.mem_entries.mpr (.inr ⟨index, hx⟩), rfl⟩
    obtain ⟨hok, hnone⟩ := ih index entry _ hcurrent hbranch (hentries ▸ hroomy')
    rw [hentries, h.roomy_slot hbranch (by omega) hroomy] at hok hnone
    refine ⟨fun hroomy'' => ?_, fun hroomy'' => ?_⟩
    · obtain ⟨branch, old, hrun, hvalid, hinserted⟩ := hok hroomy''
      obtain ⟨htree, hresult⟩ := hinserted.setBranch h hbranch hvalid
      refine ⟨_, old, ?_, htree, hresult⟩
      simp only [hrun, Option.bind_eq_bind, Option.bind_some, Option.pure_def]
      rfl
    · simp only [hnone hroomy'', Option.bind_eq_bind, Option.bind_none]

/-- An insertion into a node succeeds exactly while there is room on the last level. -/
theorem Node.insert_spec {room : Nat} (hroom : path.length + room = maxDepth) :
    NodeInserts (K := K) (V := V) path (Node.insertWith (TreeContents.insert room)) := by
  induction room generalizing path with
  | zero => exact Node.insertWith_last hroom
  | succ room ih =>
    refine Node.insertWith_spec (TreeContents.insert_spec hroom fun index => ih ?_)
    rw [List.length_append, List.length_singleton]
    omega

end Insert

/-! ## Removals -/

/-- What a removal does to the entries of a node, with what it returns. -/
structure Removed (key : MerkleKey) (l l' : List (LeafEntry K V)) (v : Option (K × V)) : Prop where
  mem : ∀ x, x ∈ l' ↔ x ∈ l ∧ x.keyBytes ≠ key
  length : l'.length + (if v.isSome then 1 else 0) = l.length
  absent : v = none → ∀ x ∈ l, x.keyBytes ≠ key
  removed : ∀ pair, v = some pair → ∃ x ∈ l, x.keyBytes = key ∧ x.pair = pair

theorem Removed.of_absent (h : ∀ x ∈ l, x.keyBytes ≠ key) : Removed key l l none where
  mem x := ⟨fun hx => ⟨hx, h x hx⟩, fun hx => hx.1⟩
  length := rfl
  absent _ := h
  removed _ h := nomatch h

theorem LeafContents.remove_sublist : (remove key l).1.Sublist l := by
  induction l with
  | nil => exact List.Sublist.slnil
  | cons x l ih =>
    unfold remove
    split
    · exact List.sublist_cons_self x l
    · exact ih.cons_cons x

theorem LeafContents.removed_remove (hsorted : l.Pairwise LeafEntry.Before) :
    Removed key l (remove key l).1 (remove key l).2 := by
  induction l with
  | nil => exact Removed.of_absent (fun _ h => nomatch h)
  | cons x l ih =>
    obtain ⟨hx, hsorted⟩ := List.pairwise_cons.mp hsorted
    have ih := ih hsorted
    unfold remove
    by_cases hkey : x.keyBytes = key
    · simp only [if_pos hkey]
      refine ⟨fun y => ?_, rfl, fun h => (nomatch h), fun pair hpair => ?_⟩
      · rw [List.mem_cons]
        constructor
        · exact fun hy => ⟨.inr hy, fun hy' => absurd (hx y hy) (by simp [LeafEntry.Before, hy', hkey])⟩
        · rintro ⟨rfl | hy, hne⟩
          · exact absurd hkey hne
          · exact hy
      · exact ⟨x, List.mem_cons_self .., hkey, Option.some.inj hpair⟩
    · simp only [if_neg hkey]
      refine ⟨fun y => ?_, ?_, fun h => ?_, fun pair hpair => ?_⟩
      · rw [List.mem_cons, List.mem_cons, ih.mem]
        constructor
        · rintro (rfl | ⟨hy, hne⟩)
          · exact ⟨.inl rfl, hkey⟩
          · exact ⟨.inr hy, hne⟩
        · rintro ⟨rfl | hy, hne⟩
          · exact .inl rfl
          · exact .inr ⟨hy, hne⟩
      · rw [List.length_cons, List.length_cons, ← ih.length]
        omega
      · exact List.forall_mem_cons.mpr ⟨hkey, ih.absent h⟩
      · obtain ⟨y, hy, hykey, hpair⟩ := ih.removed pair hpair
        exact ⟨y, List.mem_cons_of_mem x hy, hykey, hpair⟩

theorem TreeContents.Valid.intoNodeAfterRemoval {tree : TreeContents K V} (h : tree.Valid path) :
    tree.intoNodeAfterRemoval.Valid path ∧ tree.intoNodeAfterRemoval.entries = tree.entries := by
  unfold TreeContents.intoNodeAfterRemoval
  split
  next hsmall =>
    exact ⟨.leaf (h.len_entries ▸ hsmall) h.sorted fun entry hmem => h.begins hmem, rfl⟩
  next hlarge => exact ⟨Node.valid_tree.mpr ⟨Nat.lt_of_not_le hlarge, h⟩, rfl⟩

/-- The branch after a removal, or no branch when it has become empty. -/
def slotAfterRemoval (branch : Node K V) : Option (Node K V) :=
  if branch.isEmpty then none else some branch

theorem slotEntries_afterRemoval (branch : Node K V) :
    slotEntries (slotAfterRemoval branch) = branch.entries := by
  unfold slotAfterRemoval
  split
  next hempty =>
    cases branch with
    | tree => cases hempty
    | leaf values => exact (List.isEmpty_iff.mp hempty).symm
  next => rfl

theorem Removed.setBranch {tree : TreeContents K V} (h : tree.Valid path) {i : Nibble}
    {branch : Node K V} {v : Option (K × V)} {len : Nat} (hi : path ++ [i] <+: key.nibbles)
    (hvalid : branch.Valid (path ++ [i]))
    (hremoved : Removed key (slotEntries (tree.branches i)) branch.entries v)
    (hlen : len + (if v.isSome then 1 else 0) = tree.len) :
    (tree.setBranch i (slotAfterRemoval branch) len).Valid path ∧
    Removed key tree.entries (tree.setBranch i (slotAfterRemoval branch) len).entries v := by
  have hslot : ∀ node, slotAfterRemoval branch = some node →
      node.Valid (path ++ [i]) ∧ node.isEmpty = false := by
    intro node hnode
    unfold slotAfterRemoval at hnode
    split at hnode
    next => cases hnode
    next hempty =>
      obtain rfl := Option.some.inj hnode
      exact ⟨hvalid, by simpa using hempty⟩
  have hslotLen : slotLen (slotAfterRemoval branch) = branch.entries.length := by
    rw [← slotEntries_afterRemoval]
    cases hnode : slotAfterRemoval branch with
    | none => rfl
    | some node => exact (hslot node hnode).1.len_eq
  have hvalid' : (tree.setBranch i (slotAfterRemoval branch) len).Valid path := by
    refine h.setBranch hslot ?_
    rw [h.slotLen_eq, hslotLen, ← hremoved.length]
    omega
  refine ⟨hvalid', fun x => ?_, ?_, fun hnone x hx hkey => ?_, fun pair hpair => ?_⟩
  · rw [h.mem_setBranch fun node hnode => (hslot node hnode).1, slotEntries_afterRemoval]
    split
    next hx => rw [h.mem_slot hx, hremoved.mem]
    next hx =>
      have hkey : x.keyBytes ≠ key := fun hkey => hx (hkey ▸ hi)
      exact ⟨fun hmem => ⟨hmem, hkey⟩, fun hmem => hmem.1⟩
  · rw [← hvalid'.len_entries, ← h.len_entries]
    exact hlen
  · exact hremoved.absent hnone x ((h.mem_slot (hkey ▸ hi)).mp hx) hkey
  · obtain ⟨x, hx, hkey, hpair⟩ := hremoved.removed pair hpair
    exact ⟨x, (h.mem_slot (hkey ▸ hi)).mpr hx, hkey, hpair⟩

/-- The removal of the entry whose key ends at the path. -/
theorem TreeContents.remove_end {tree : TreeContents K V} (h : tree.Valid path)
    (hend : key.nibbles = path) (hleaf : tree.leaf = some entry) (hkey : entry.keyBytes = key) :
    (TreeContents.mk (tree.len - 1) none tree.branches).Valid path ∧
    Removed key tree.entries (TreeContents.mk (tree.len - 1) none tree.branches).entries
      (some entry.pair) := by
  have hcount := h.count
  simp only [childrenLen, hleaf, Option.toList_some, List.length_singleton] at hcount
  refine ⟨⟨?_, fun _ h => (by cases h), h.children, h.nonempty⟩, fun x => ?_, ?_,
    fun h => (by cases h), fun pair hpair => ?_⟩
  · simp only [childrenLen, Option.toList_none, List.length_nil]
    omega
  · rw [TreeContents.mem_entries, TreeContents.mem_entries]
    constructor
    · rintro (hx | ⟨i, hx⟩)
      · cases hx
      · exact ⟨.inr ⟨i, hx⟩, fun hx' => not_branch_of_end hend i (hx' ▸ h.begins_slot hx)⟩
    · rintro ⟨hx | hx, hne⟩
      · obtain rfl := Option.some.inj (hleaf.symm.trans hx)
        exact absurd hkey hne
      · exact .inr hx
  · rw [TreeContents.entries_eq, TreeContents.entries_eq, List.length_append, List.length_append,
      hleaf]
    simp
    omega
  · exact ⟨entry, TreeContents.mem_entries.mpr (.inl hleaf), hkey, Option.some.inj hpair⟩

/-- The removal of a key from a node at the path. -/
theorem Node.Valid.remove {node : Node K V} (h : node.Valid path) (hkey : path <+: key.nibbles) :
    (node.remove key path.length).1.Valid path ∧
      Removed key node.entries (node.remove key path.length).1.entries
        (node.remove key path.length).2 := by
  induction h using Node.Valid.induct with
  | leaf path values full sorted below =>
    have hsub : (LeafContents.remove key values).1.Sublist values := LeafContents.remove_sublist
    exact ⟨.leaf (hsub.length_le.trans full) (sorted.sublist hsub)
      fun entry hmem => below entry (hsub.mem hmem), LeafContents.removed_remove sorted⟩
  | tree path tree large h ih =>
    have hunchanged : tree.node.remove key path.length = (tree.node, none) →
        (∀ x ∈ tree.entries, x.keyBytes ≠ key) →
        (tree.node.remove key path.length).1.Valid path ∧
          Removed key tree.node.entries (tree.node.remove key path.length).1.entries
            (tree.node.remove key path.length).2 := fun hrun habsent => by
      rw [hrun]
      exact ⟨Node.valid_tree.mpr ⟨large, h⟩, Removed.of_absent habsent⟩
    cases hindex : key.getIndexForDepth path.length with
    | none =>
      have hend := (MerkleKey.getIndexForDepth_eq_none hkey).mp hindex
      cases hleaf : tree.leaf with
      | none =>
        have hrun : tree.node.remove key path.length = (tree.node, none) := by
          simp only [TreeContents.node, Node.remove, hindex, hleaf]
        refine hunchanged hrun fun x hx hxkey => ?_
        have := (h.mem_own (by rw [hxkey, hend])).mp hx
        rw [hleaf] at this
        cases this
      | some entry =>
        have hentry : entry.keyBytes = key :=
          MerkleKey.nibbles_injective ((h.ends entry hleaf).trans hend.symm)
        have hrun : tree.node.remove key path.length =
            (TreeContents.intoNodeAfterRemoval ⟨tree.len - 1, none, tree.branches⟩,
              some entry.pair) := by
          simp only [TreeContents.node, Node.remove, hindex, hleaf, if_pos hentry]
        obtain ⟨hvalid, hremoved⟩ := TreeContents.remove_end h hend hleaf hentry
        obtain ⟨hnode, hentries⟩ := hvalid.intoNodeAfterRemoval
        rw [hrun]
        refine ⟨hnode, ?_⟩
        rw [hentries]
        exact hremoved
    | some index =>
      have hbranch := (MerkleKey.getIndexForDepth_eq_some hkey).mp hindex
      cases hslot : tree.branches index with
      | none =>
        have hrun : tree.node.remove key path.length = (tree.node, none) := by
          simp only [TreeContents.node, Node.remove, hindex, hslot, slotRemove]
        refine hunchanged hrun fun x hx hxkey => ?_
        have := (h.mem_slot (hxkey ▸ hbranch)).mp hx
        rw [hslot] at this
        cases this
      | some branch =>
        have ih := ih index branch hslot hbranch
        rw [List.length_append, List.length_singleton] at ih
        have hbranches : slotEntries (tree.branches index) = branch.entries := by
          rw [hslot, slotEntries_some]
        cases hresult : branch.remove key (path.length + 1) with
        | mk branch' v =>
          rw [hresult] at ih
          obtain ⟨hvalid, hremoved⟩ := ih
          rw [← hbranches] at hremoved
          cases v with
          | none =>
            have hrun : tree.node.remove key path.length =
                ((tree.setBranch index (slotAfterRemoval branch') tree.len).node, none) := by
              simp only [TreeContents.node, Node.remove, hindex, hslot, slotRemove, hresult]
              rfl
            obtain ⟨hvalid, hremoved⟩ := hremoved.setBranch h hbranch hvalid rfl
            rw [hrun]
            exact ⟨Node.valid_tree.mpr ⟨large, hvalid⟩, hremoved⟩
          | some pair =>
            have hrun : tree.node.remove key path.length =
                ((tree.setBranch index (slotAfterRemoval branch')
                  (tree.len - 1)).intoNodeAfterRemoval, some pair) := by
              simp only [TreeContents.node, Node.remove, hindex, hslot, slotRemove, hresult]
              rfl
            have hlen : tree.len - 1 + 1 = tree.len := by omega
            obtain ⟨hvalid, hremoved⟩ := hremoved.setBranch h hbranch hvalid hlen
            obtain ⟨hnode, hentries⟩ := hvalid.intoNodeAfterRemoval
            rw [hrun]
            refine ⟨hnode, ?_⟩
            rw [hentries]
            exact hremoved

/-! ## Changes of values -/

/-- The entry after a change of the value at the key. -/
def LeafEntry.changeAt (key : MerkleKey) (change : V → V) (entry : LeafEntry K V) :
    LeafEntry K V :=
  if entry.keyBytes = key then { entry with value := change entry.value } else entry

/-- What a change through a reference does to the entries of a node, with the value it saw. -/
structure Changed (key : MerkleKey) (change : V → V) (l l' : List (LeafEntry K V)) (v : Option V) :
    Prop where
  entries : l' = l.map (LeafEntry.changeAt key change)
  absent : v = none → ∀ x ∈ l, x.keyBytes ≠ key
  found : ∀ value, v = some value → ∃ x ∈ l, x.keyBytes = key ∧ x.value = value

@[simp] theorem LeafEntry.keyBytes_changeAt (key : MerkleKey) (change : V → V)
    (entry : LeafEntry K V) : (entry.changeAt key change).keyBytes = entry.keyBytes := by
  unfold LeafEntry.changeAt
  split <;> rfl

theorem LeafEntry.changeAt_of_ne {change : V → V} (h : entry.keyBytes ≠ key) :
    entry.changeAt key change = entry := if_neg h

theorem map_changeAt_of_absent {change : V → V} (h : ∀ x ∈ l, x.keyBytes ≠ key) :
    l.map (LeafEntry.changeAt key change) = l := by
  rw [List.map_congr_left fun x hx => LeafEntry.changeAt_of_ne (h x hx), List.map_id']

theorem Changed.of_absent {change : V → V} (h : ∀ x ∈ l, x.keyBytes ≠ key) :
    Changed key change l l none where
  entries := (map_changeAt_of_absent h).symm
  absent _ := h
  found _ h := nomatch h

theorem sorted_changeAt {change : V → V} (h : l.Pairwise LeafEntry.Before) :
    (l.map (LeafEntry.changeAt key change)).Pairwise LeafEntry.Before := by
  rw [List.pairwise_map]
  exact h.imp fun hab => by simpa [LeafEntry.Before] using hab

theorem LeafContents.changed_getMut {change : V → V} (hsorted : l.Pairwise LeafEntry.Before) :
    Changed key change l (getMut key change l).1 (getMut key change l).2 := by
  induction l with
  | nil => exact Changed.of_absent (fun _ h => nomatch h)
  | cons x l ih =>
    obtain ⟨hx, hsorted⟩ := List.pairwise_cons.mp hsorted
    have ih := ih hsorted
    unfold getMut
    by_cases hkey : x.keyBytes = key
    · simp only [if_pos hkey]
      refine ⟨?_, fun h => (nomatch h), fun value hvalue => ?_⟩
      · have hrest : ∀ y ∈ l, y.keyBytes ≠ key := fun y hy => hkey ▸ (ne_of_lt (hx y hy)).symm
        rw [List.map_cons, map_changeAt_of_absent hrest, LeafEntry.changeAt, if_pos hkey]
      · exact ⟨x, List.mem_cons_self .., hkey, Option.some.inj hvalue⟩
    · simp only [if_neg hkey]
      refine ⟨?_, fun h => List.forall_mem_cons.mpr ⟨hkey, ih.absent h⟩, fun value hvalue => ?_⟩
      · rw [List.map_cons, LeafEntry.changeAt_of_ne hkey, ← ih.entries]
      · obtain ⟨y, hy, hykey, hvalue⟩ := ih.found value hvalue
        exact ⟨y, List.mem_cons_of_mem x hy, hykey, hvalue⟩

/-- A change below a branch. -/
theorem Changed.setBranch {tree : TreeContents K V} {change : V → V} (h : tree.Valid path)
    {i : Nibble} {slot : Option (Node K V)} {v : Option V} (hi : path ++ [i] <+: key.nibbles)
    (hvalid : ∀ node, slot = some node → node.Valid (path ++ [i]) ∧ node.isEmpty = false)
    (hchanged : Changed key change (slotEntries (tree.branches i)) (slotEntries slot) v) :
    (tree.setBranch i slot tree.len).Valid path ∧
    Changed key change tree.entries (tree.setBranch i slot tree.len).entries v := by
  have hslotLen : slotLen slot = (slotEntries slot).length := by
    cases hslot : slot with
    | none => rfl
    | some node => exact (hvalid node hslot).1.len_eq
  have hvalid' : (tree.setBranch i slot tree.len).Valid path := by
    refine h.setBranch hvalid ?_
    rw [h.slotLen_eq, hslotLen, hchanged.entries, List.length_map]
  refine ⟨hvalid', ?_, fun hnone x hx hkey => ?_, fun value hvalue => ?_⟩
  · refine eq_of_mem_iff hvalid'.sorted (sorted_changeAt h.sorted) fun x => ?_
    rw [h.mem_setBranch fun node hnode => (hvalid node hnode).1, hchanged.entries, List.mem_map,
      List.mem_map]
    split
    next hx =>
      constructor
      · rintro ⟨y, hy, rfl⟩
        exact ⟨y, TreeContents.mem_entries.mpr (.inr ⟨i, hy⟩), rfl⟩
      · rintro ⟨y, hy, rfl⟩
        exact ⟨y, (h.mem_slot (by simpa using hx)).mp hy, rfl⟩
    next hx =>
      constructor
      · intro hmem
        refine ⟨x, hmem, LeafEntry.changeAt_of_ne fun hkey => hx (hkey ▸ hi)⟩
      · rintro ⟨y, hy, rfl⟩
        have hne : y.keyBytes ≠ key := fun hkey => hx (by simpa [hkey] using hi)
        rwa [LeafEntry.changeAt_of_ne hne]
  · exact hchanged.absent hnone x ((h.mem_slot (hkey ▸ hi)).mp hx) hkey
  · obtain ⟨x, hx, hkey, hvalue⟩ := hchanged.found value hvalue
    exact ⟨x, (h.mem_slot (hkey ▸ hi)).mpr hx, hkey, hvalue⟩

/-- A change of the value of the entry whose key ends at the path. -/
theorem TreeContents.getMut_end {tree : TreeContents K V} (change : V → V) (h : tree.Valid path)
    (hend : key.nibbles = path) :
    (TreeContents.mk tree.len
      (tree.leaf.map fun entry => { entry with value := change entry.value })
      tree.branches).Valid path ∧
    Changed key change tree.entries
      (TreeContents.mk tree.len
        (tree.leaf.map fun entry => { entry with value := change entry.value })
        tree.branches).entries (tree.leaf.map LeafEntry.value) := by
  have hbelow : ∀ x ∈ (List.finRange 16).flatMap fun i => slotEntries (tree.branches i),
      x.keyBytes ≠ key := by
    intro x hx hkey
    obtain ⟨i, -, hx⟩ := List.mem_flatMap.mp hx
    exact not_branch_of_end hend i (hkey ▸ h.begins_slot hx)
  have hown : ∀ entry, tree.leaf = some entry → entry.keyBytes = key := fun entry hleaf =>
    MerkleKey.nibbles_injective ((h.ends entry hleaf).trans hend.symm)
  refine ⟨⟨?_, fun entry hleaf => ?_, h.children, h.nonempty⟩, ?_, fun hnone x hx => ?_,
    fun value hvalue => ?_⟩
  · have hcount := h.count
    simp only [childrenLen] at hcount ⊢
    cases hleaf : tree.leaf <;> simpa [hleaf] using hcount
  · obtain ⟨old, hold, rfl⟩ := Option.map_eq_some_iff.mp hleaf
    exact h.ends old hold
  · rw [TreeContents.entries_eq, TreeContents.entries_eq, List.map_append,
      map_changeAt_of_absent hbelow]
    cases hleaf : tree.leaf with
    | none => rfl
    | some entry => simp [LeafEntry.changeAt, hown entry hleaf]
  · rw [Option.map_eq_none_iff] at hnone
    rcases TreeContents.mem_entries.mp hx with hx | ⟨i, hx⟩
    · rw [hnone] at hx
      cases hx
    · exact hbelow x (List.mem_flatMap.mpr ⟨i, List.mem_finRange i, hx⟩)
  · obtain ⟨entry, hleaf, hvalue⟩ := Option.map_eq_some_iff.mp hvalue
    exact ⟨entry, TreeContents.mem_entries.mpr (.inl hleaf), hown entry hleaf, hvalue⟩

theorem Node.isEmpty_getMut {node : Node K V} {change : V → V} {depth : Nat}
    (h : node.isEmpty = false) : (node.getMut key change depth).1.isEmpty = false := by
  cases node with
  | tree len own branches =>
    unfold Node.getMut
    cases key.getIndexForDepth depth <;> rfl
  | leaf values =>
    cases values with
    | nil => cases h
    | cons x values =>
      simp only [Node.getMut, LeafContents.getMut]
      split <;> rfl

/-- A change of the value at a key of a node at the path. -/
theorem Node.Valid.getMut {node : Node K V} {change : V → V} (h : node.Valid path)
    (hkey : path <+: key.nibbles) :
    (node.getMut key change path.length).1.Valid path ∧
      Changed key change node.entries (node.getMut key change path.length).1.entries
        (node.getMut key change path.length).2 := by
  induction h using Node.Valid.induct with
  | leaf path values full sorted below =>
    have hchanged : Changed key change values (LeafContents.getMut key change values).1
        (LeafContents.getMut key change values).2 := LeafContents.changed_getMut sorted
    refine ⟨.leaf ?_ ?_ fun entry hmem => ?_, hchanged⟩
    · rw [hchanged.entries, List.length_map]
      exact full
    · rw [hchanged.entries]
      exact sorted_changeAt sorted
    · rw [hchanged.entries] at hmem
      obtain ⟨x, hx, rfl⟩ := List.mem_map.mp hmem
      simpa using below x hx
  | tree path tree large h ih =>
    cases hindex : key.getIndexForDepth path.length with
    | none =>
      have hend := (MerkleKey.getIndexForDepth_eq_none hkey).mp hindex
      have hrun : tree.node.getMut key change path.length =
          ((TreeContents.mk tree.len
            (tree.leaf.map fun entry => { entry with value := change entry.value })
            tree.branches).node, tree.leaf.map LeafEntry.value) := by
        simp only [TreeContents.node, Node.getMut, hindex]
      obtain ⟨hvalid, hchanged⟩ := TreeContents.getMut_end change h hend
      rw [hrun]
      exact ⟨Node.valid_tree.mpr ⟨large, hvalid⟩, hchanged⟩
    | some index =>
      have hbranch := (MerkleKey.getIndexForDepth_eq_some hkey).mp hindex
      have hrun : tree.node.getMut key change path.length =
          ((tree.setBranch index (slotGetMut key change (path.length + 1)
            (tree.branches index)).1 tree.len).node,
            (slotGetMut key change (path.length + 1) (tree.branches index)).2) := by
        simp only [TreeContents.node, Node.getMut, hindex]
        rfl
      have hslot : (∀ node, (slotGetMut key change (path.length + 1)
            (tree.branches index)).1 = some node →
            node.Valid (path ++ [index]) ∧ node.isEmpty = false) ∧
          Changed key change (slotEntries (tree.branches index))
            (slotEntries (slotGetMut key change (path.length + 1) (tree.branches index)).1)
            (slotGetMut key change (path.length + 1) (tree.branches index)).2 := by
        cases hnode : tree.branches index with
        | none => exact ⟨fun _ h => (nomatch h), Changed.of_absent (fun _ h => nomatch h)⟩
        | some node =>
          have ih := ih index node hnode hbranch
          rw [List.length_append, List.length_singleton] at ih
          refine ⟨fun node' hnode' => ?_, ih.2⟩
          obtain rfl := Option.some.inj hnode'
          exact ⟨ih.1, Node.isEmpty_getMut (h.nonempty index node hnode)⟩
      obtain ⟨hvalid, hchanged⟩ := hslot.2.setBranch h hbranch hslot.1
      rw [hrun]
      exact ⟨Node.valid_tree.mpr ⟨large, hvalid⟩, hchanged⟩

end Kolme.Merkle
