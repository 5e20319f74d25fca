import Kolme.Merkle.NodeFormat
import Kolme.Properties.MerkleMaps

/-!
# Merkle maps do not remember their history

The entries of a map determine its tree: a node is a leaf exactly if at most sixteen entries are
below its path, and every entry of a tree is where its key says. So two maps with the same values
under the same keys have the same shape, the same bytes and the same root hash, however they were
made.
-/

namespace Kolme.Merkle

variable {K V K' V' : Type} {path : List Nibble}

/-! ## Trees of the same shape -/

/-- Two nodes of the same shape, with entries that are related. -/
inductive Node.Alike (r : LeafEntry K V → LeafEntry K' V' → Prop) : Node K V → Node K' V' → Prop
  | leaf {values : List (LeafEntry K V)} {values' : List (LeafEntry K' V')}
    (h : List.Forall₂ r values values') : Alike r (.leaf values) (.leaf values')
  | tree {tree : TreeContents K V} {tree' : TreeContents K' V'} (len : tree.len = tree'.len)
    (own : Option.Rel r tree.leaf tree'.leaf)
    (none : ∀ i, tree.branches i = none ↔ tree'.branches i = none)
    (some : ∀ i node node', tree.branches i = some node → tree'.branches i = some node' →
      Alike r node node') : Alike r tree.node tree'.node

/-- Entries with the same key. -/
def SameKeys (r : LeafEntry K V → LeafEntry K' V' → Prop) : Prop :=
  ∀ {x y}, r x y → x.keyBytes = y.keyBytes

theorem optionRel_of_forall₂ {α β : Type} {r : α → β → Prop} {a : Option α} {b : Option β}
    (h : List.Forall₂ r a.toList b.toList) : Option.Rel r a b := by
  cases a <;> cases b <;> cases h
  · exact .none
  · exact .some ‹_›

theorem optionRel_eq {α : Type} {a b : Option α} (h : Option.Rel (· = ·) a b) : a = b := by
  cases h with
  | none => rfl
  | some h => rw [h]

theorem LeafEntry.not_before (entry : LeafEntry K V) : ¬entry.Before entry := lt_irrefl _

instance : Std.Irrefl (LeafEntry.Before : LeafEntry K V → LeafEntry K V → Prop) :=
  ⟨LeafEntry.not_before⟩

instance : Std.Asymm (LeafEntry.Before : LeafEntry K V → LeafEntry K V → Prop) :=
  ⟨fun _ _ => lt_asymm⟩

namespace TreeContents.Valid

variable {tree : TreeContents K V} {tree' : TreeContents K' V'}

/-- The entries whose keys end at the path. -/
theorem filter_own (h : tree.Valid path) :
    (tree.entries.filter fun entry => entry.keyBytes.nibbles = path) = tree.leaf.toList := by
  refine (h.sorted.filter _).eq_of_mem_iff ?_ fun entry => ?_
  · cases tree.leaf <;> simp
  · rw [List.mem_filter, decide_eq_true_iff, Option.mem_toList]
    constructor
    · rintro ⟨hmem, hpath⟩
      exact (h.mem_own hpath).mp hmem
    · intro hown
      exact ⟨mem_entries.mpr (.inl hown), h.ends entry hown⟩

/-- The entries whose keys go on in a branch. -/
theorem filter_slot (h : tree.Valid path) (i : Nibble) :
    (tree.entries.filter fun entry => path ++ [i] <+: entry.keyBytes.nibbles) =
      slotEntries (tree.branches i) := by
  refine (h.sorted.filter _).eq_of_mem_iff ?_ fun entry => ?_
  · cases hslot : tree.branches i with
    | none => exact .nil
    | some node => exact (h.children i node hslot).sorted
  · rw [List.mem_filter, decide_eq_true_iff]
    constructor
    · rintro ⟨hmem, hi⟩
      exact (h.mem_slot hi).mp hmem
    · intro hmem
      exact ⟨mem_entries.mpr (.inr ⟨i, hmem⟩), h.begins_slot hmem⟩

theorem slotEntries_eq_nil (h : tree.Valid path) (i : Nibble) :
    slotEntries (tree.branches i) = [] ↔ tree.branches i = none := by
  cases hslot : tree.branches i with
  | none => simp
  | some node =>
    simp only [slotEntries_some, reduceCtorEq, iff_false]
    intro hnil
    have hlen := (h.children i node hslot).len_ne_zero (h.nonempty i node hslot)
    rw [(h.children i node hslot).len_eq, hnil] at hlen
    exact hlen rfl

end TreeContents.Valid

theorem Node.Valid.leaf_or_tree {node : Node K V} (h : node.Valid path) :
    (∃ values, node = .leaf values ∧ values.length ≤ 16) ∨
      ∃ tree : TreeContents K V, node = tree.node ∧ 16 < tree.len ∧ tree.Valid path := by
  induction h using Node.Valid.induct with
  | leaf path values full => exact .inl ⟨values, rfl, full⟩
  | tree path tree large h => exact .inr ⟨tree, rfl, large, h⟩

/-- The entries of a valid node determine its shape. -/
theorem Node.Valid.alike {r : LeafEntry K V → LeafEntry K' V' → Prop} (hkeys : SameKeys r)
    {node : Node K V} {node' : Node K' V'} (h : node.Valid path) (h' : node'.Valid path)
    (hentries : List.Forall₂ r node.entries node'.entries) : node.Alike r node' := by
  induction h using Node.Valid.induct generalizing node' with
  | leaf path values full =>
    rcases h'.leaf_or_tree with ⟨values', rfl, -⟩ | ⟨tree', rfl, large, h'⟩
    · exact .leaf hentries
    · have hlen := h'.len_entries.trans hentries.length_eq.symm
      exact absurd (hlen.trans_le full) (Nat.not_le.mpr large)
  | tree path tree large h ih =>
    rcases h'.leaf_or_tree with ⟨values', rfl, full⟩ | ⟨tree', rfl, -, h'⟩
    · have hlen := h.len_entries.trans hentries.length_eq
      exact absurd (hlen.trans_le full) (Nat.not_le.mpr large)
    · have hslots : ∀ i, List.Forall₂ r (slotEntries (tree.branches i))
          (slotEntries (tree'.branches i)) := by
        intro i
        rw [← h.filter_slot i, ← h'.filter_slot i]
        refine List.rel_filter (fun x y hxy => ?_) hentries
        simp only [decide_eq_true_eq, hkeys hxy]
      have hown : Option.Rel r tree.leaf tree'.leaf := by
        refine optionRel_of_forall₂ ?_
        rw [← h.filter_own, ← h'.filter_own]
        refine List.rel_filter (fun x y hxy => ?_) hentries
        simp only [decide_eq_true_eq, hkeys hxy]
      have hlen := h.len_entries.trans (hentries.length_eq.trans h'.len_entries.symm)
      refine .tree hlen hown (fun i => ?_) fun i node node' hnode hnode' => ?_
      · have hslot := hslots i
        rw [← h.slotEntries_eq_nil, ← h'.slotEntries_eq_nil]
        constructor
        · intro hnil
          rw [hnil] at hslot
          exact List.forall₂_nil_left_iff.mp hslot
        · intro hnil
          rw [hnil] at hslot
          exact List.forall₂_nil_right_iff.mp hslot
      · have hslot := hslots i
        rw [hnode, hnode', slotEntries_some, slotEntries_some] at hslot
        exact ih i node hnode (h'.children i node' hnode') hslot

/-- Nodes of the same shape with the same entries are the same. -/
theorem Node.Alike.eq {node node' : Node K V} (h : node.Alike (· = ·) node') : node = node' := by
  induction h with
  | leaf h => rw [List.forall₂_eq_eq_eq] at h; rw [h]
  | @tree tree tree' len own none some ih =>
    suffices tree = tree' by rw [this]
    refine TreeContents.ext len (optionRel_eq own) (funext fun i => ?_)
    cases hslot : tree.branches i with
    | none => exact ((none i).mp hslot).symm
    | some child =>
      cases hslot' : tree'.branches i with
      | none => rw [(none i).mpr hslot'] at hslot; cases hslot
      | some child' => rw [ih i child child' hslot hslot']

section

variable [MerkleSerializeRaw V] [Sha256]

/-- Entries that are written in the same way. -/
def LeafEntry.SameBytes (x y : LeafEntry K V) : Prop := x.keyBytes = y.keyBytes ∧ x.value = y.value

omit [Sha256] in
theorem LeafEntry.SameBytes.store {x y : LeafEntry K V} (h : x.SameBytes y) :
    MerkleSerializer.store x = MerkleSerializer.store y := by
  change MerkleSerializer.storeSlice x.keyBytes.bytes ++ MerkleSerializer.store x.value =
    MerkleSerializer.storeSlice y.keyBytes.bytes ++ MerkleSerializer.store y.value
  rw [h.1, h.2]

omit [Sha256] in
theorem storeAll_sameBytes {values values' : List (LeafEntry K V)}
    (h : List.Forall₂ LeafEntry.SameBytes values values') :
    MerkleSerializer.storeAll MerkleSerializer.store values =
      MerkleSerializer.storeAll MerkleSerializer.store values' := by
  induction h with
  | nil => rfl
  | cons h _ ih => rw [MerkleSerializer.storeAll, MerkleSerializer.storeAll, h.store, ih]

omit [Sha256] in
theorem storeLeaf_sameBytes {own own' : Option (LeafEntry K V)}
    (h : Option.Rel LeafEntry.SameBytes own own') : storeLeaf own = storeLeaf own' := by
  cases h with
  | none => rfl
  | some h => rw [storeLeaf, storeLeaf, h.store]

/-- Nodes of the same shape whose entries have the same keys and values are written in the same
way. -/
theorem Node.Alike.merkleSerialize_eq {node node' : Node K V}
    (h : node.Alike LeafEntry.SameBytes node') : node.merkleSerialize = node'.merkleSerialize := by
  induction h with
  | leaf h =>
    rw [Node.merkleSerialize, Node.merkleSerialize, LeafContents.merkleSerialize,
      LeafContents.merkleSerialize, h.length_eq, storeAll_sameBytes h]
  | @tree tree tree' len own none some ih =>
    have hslots : (fun i => slotSerialize (tree.branches i)) =
        fun i => slotSerialize (tree'.branches i) := by
      funext i
      cases hslot : tree.branches i with
      | none => rw [(none i).mp hslot]
      | some child =>
        cases hslot' : tree'.branches i with
        | none => rw [(none i).mpr hslot'] at hslot; cases hslot
        | some child' => rw [slotSerialize, slotSerialize, ih i child child' hslot hslot']
    rw [TreeContents.node, TreeContents.node, Node.merkleSerialize, Node.merkleSerialize, len,
      storeLeaf_sameBytes own, hslots]

end

/-! ## Maps with the same values -/

section

variable [ToMerkleKey K] {map map' : MerkleMap K V} {m m' : EntryMap K V}

/-- The key and the value of an entry. -/
def LeafEntry.binding (entry : LeafEntry K V) : MerkleKey × V := (entry.keyBytes, entry.value)

omit [ToMerkleKey K] in
theorem Node.Valid.nodup_bindings {node : Node K V} (h : node.Valid path) :
    (node.entries.map LeafEntry.binding).Pairwise fun x y => x.1 < y.1 :=
  List.pairwise_map.mpr h.sorted

/-- A value is found under a key if it is in an entry with the key. -/
theorem Holds.mem_bindings (h : Holds map m) {key : MerkleKey} {value : V} :
    (key, value) ∈ map.node.entries.map LeafEntry.binding ↔ map.get key = some value := by
  rw [List.mem_map, MerkleMap.get, Option.map_eq_some_iff]
  constructor
  · rintro ⟨entry, hmem, heq⟩
    obtain ⟨hkey, hvalue⟩ := Prod.mk.inj heq
    exact ⟨entry, (h.valid.get List.nil_prefix).mpr ⟨hmem, hkey⟩, hvalue⟩
  · rintro ⟨entry, hget, hvalue⟩
    obtain ⟨hmem, rfl⟩ := (h.valid.get List.nil_prefix).mp hget
    exact ⟨entry, hmem, Prod.ext rfl hvalue⟩

instance : Std.Irrefl fun x y : MerkleKey × V => x.1 < y.1 := ⟨fun x => lt_irrefl x.1⟩

instance : Std.Asymm fun x y : MerkleKey × V => x.1 < y.1 := ⟨fun _ _ => lt_asymm⟩

/-- Maps with the same values have entries with the same keys and values, in the same order. -/
theorem Holds.sameBytes (h : Holds map m) (h' : Holds map' m')
    (hget : ∀ key, map.get key = map'.get key) :
    List.Forall₂ LeafEntry.SameBytes map.node.entries map'.node.entries := by
  have hbindings : map.node.entries.map LeafEntry.binding =
      map'.node.entries.map LeafEntry.binding := by
    refine h.valid.nodup_bindings.eq_of_mem_iff h'.valid.nodup_bindings fun ⟨key, value⟩ => ?_
    rw [h.mem_bindings, h'.mem_bindings, hget]
  rw [← List.forall₂_eq_eq_eq, List.forall₂_map_left_iff, List.forall₂_map_right_iff] at hbindings
  exact hbindings.imp fun _ _ => Prod.mk.inj

/-- Keys that are told apart by their bytes are the same in both maps. -/
theorem Holds.entries_eq (h : Holds map m) (h' : Holds map' m')
    (hinjective : Function.Injective (ToMerkleKey.toMerkleKey : K → MerkleKey))
    (hget : ∀ key, map.get key = map'.get key) : map.node.entries = map'.node.entries := by
  rw [← List.forall₂_eq_eq_eq]
  refine (List.forall₂_iff_get.mpr ⟨(h.sameBytes h' hget).length_eq, fun n hn hn' => ?_⟩)
  obtain ⟨hkey, hvalue⟩ := (h.sameBytes h' hget).get hn hn'
  have hsame := hkey
  rw [h.keyed _ (List.get_mem _ _), h'.keyed _ (List.get_mem _ _)] at hsame
  rw [LeafEntry.mk.injEq]
  exact ⟨hkey, hinjective hsame, hvalue⟩

/-- The maps of a program hold the entries of finite maps. -/
theorem holds_of_runOperations [Inhabited V] {operations : List (Operation K V)}
    {maps : Nat → MerkleMap K V} {outcomes : List (Outcome K V)}
    (hrun : runOperations operations (fun _ => MerkleMap.new) = some (maps, outcomes)) (i : Nat) :
    ∃ m, Holds (maps i) m := by
  obtain ⟨hroomy, hpanics⟩ := runOperations_simulates operations fun _ => holds_new
  by_cases hall : ∀ before, before <+: operations →
      AllRoomy (EntryMap.run before fun _ : Nat => (∅ : EntryMap K V)).1
  · obtain ⟨maps', hrun', h⟩ := hroomy hall
    rw [hrun] at hrun'
    obtain ⟨rfl, -⟩ := Prod.mk.inj (Option.some.inj hrun')
    exact ⟨_, h i⟩
  · rw [hpanics hall] at hrun
    cases hrun

/-- Programs with short keys run to their end. -/
theorem exists_runOperations [Inhabited V] {operations : List (Operation K V)}
    (hshort : ∀ operation ∈ operations, operation.Short) :
    ∃ maps, runOperations operations (fun _ => MerkleMap.new) =
        some (maps, (EntryMap.run operations fun _ => ∅).2) ∧
      ∀ i, Holds (maps i) ((EntryMap.run operations fun _ => ∅).1 i) := by
  refine (runOperations_simulates operations fun _ => holds_new).1 fun before hbefore i => ?_
  refine roomy_of_fits (fits_run (fun operation hmem => ?_) (fun _ key hkey => ?_) i)
  · exact hshort operation (hbefore.subset hmem)
  · obtain ⟨p, hp⟩ := EntryMap.mem_keySet.mp hkey
    cases hp

/-- Maps in which the same values are found are serialized to the same bytes, whatever programs made
them, and are the same tree if their keys have different bytes. -/
theorem history_independent [Inhabited V] [MerkleSerializeRaw V] [Sha256]
    {operations operations' : List (Operation K V)} {maps maps' : Nat → MerkleMap K V}
    {outcomes outcomes' : List (Outcome K V)}
    (hrun : runOperations operations (fun _ => MerkleMap.new) = some (maps, outcomes))
    (hrun' : runOperations operations' (fun _ => MerkleMap.new) = some (maps', outcomes'))
    {i j : Nat} (hget : ∀ key, (maps i).get key = (maps' j).get key) :
    serialize (maps i) = serialize (maps' j) ∧
      (Function.Injective (ToMerkleKey.toMerkleKey : K → MerkleKey) → maps i = maps' j) := by
  obtain ⟨m, h⟩ := holds_of_runOperations hrun i
  obtain ⟨m', h'⟩ := holds_of_runOperations hrun' j
  refine ⟨?_, fun hinjective => ?_⟩
  · have halike := h.valid.alike (fun h => h.1) h'.valid (h.sameBytes h' hget)
    exact congrArg MerkleSerializer.finish halike.merkleSerialize_eq
  · have hentries := h.entries_eq h' hinjective hget
    rw [← List.forall₂_eq_eq_eq] at hentries
    rw [MerkleMap.mk.injEq]
    exact (h.valid.alike (fun h => h ▸ rfl) h'.valid hentries).eq

end

namespace HistorySample

scoped instance : Sha256 := ⟨fun _ => 0⟩

def insertions : List (Operation UInt8 UInt8) :=
  (List.range 16).map fun n => .insert 0 (UInt8.ofNat n) (UInt8.ofNat (2 * n))

/-- Another key makes a tree of the leaf, and is removed again. -/
def detour : List (Operation UInt8 UInt8) :=
  .insert 0 200 1 :: insertions ++ [.remove 0 ⟨[200]⟩]

theorem short_insert (key value : UInt8) : (Operation.insert 0 key value).Short := by
  change 1 < 16384
  decide

theorem short_insertions : ∀ operation ∈ insertions, operation.Short := by
  intro operation hmem
  obtain ⟨n, -, rfl⟩ := List.mem_map.mp hmem
  exact short_insert _ _

theorem short_detour : ∀ operation ∈ detour, operation.Short := by
  intro operation hmem
  rcases List.mem_cons.mp hmem with rfl | hmem
  · exact short_insert _ _
  · rcases List.mem_append.mp hmem with hmem | hmem
    · exact short_insertions operation hmem
    · obtain rfl := List.mem_singleton.mp hmem
      trivial

theorem short_reverse : ∀ operation ∈ insertions.reverse, operation.Short := fun operation hmem =>
  short_insertions operation (List.mem_reverse.mp hmem)

theorem run_detour : (EntryMap.run detour fun _ => ∅).1 0 =
    (EntryMap.run insertions.reverse fun _ => ∅).1 0 := by decide

end HistorySample

open HistorySample in
theorem history_independent_detour : ∃ maps maps' outcomes outcomes',
    runOperations detour (fun _ => MerkleMap.new) = some (maps, outcomes) ∧
      runOperations insertions.reverse (fun _ => MerkleMap.new) = some (maps', outcomes') ∧
      serialize (maps 0) = serialize (maps' 0) := by
  obtain ⟨maps, hrun, h⟩ := exists_runOperations short_detour
  obtain ⟨maps', hrun', h'⟩ := exists_runOperations short_reverse
  refine ⟨maps, maps', _, _, hrun, hrun', (history_independent hrun hrun' fun key => ?_).1⟩
  rw [(h 0).get, (h' 0).get, run_detour]

end Kolme.Merkle
