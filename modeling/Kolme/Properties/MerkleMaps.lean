import Kolme.Lib.SortedMap
import Kolme.Merkle.Iteration

/-!
# The Merkle map is a sorted map

A program works on any number of Merkle maps. Each operation returns what it returns on finite maps
from Merkle keys to entries, ordered by the bytes of the keys, and keeps the representation
invariant of every tree.
-/

namespace Kolme.Merkle

variable {K V : Type}

/-! ## Programs -/

/-- A call of a double-ended iterator. -/
inductive Turn
  | next
  | nextBack

def Iter.walk : List Turn → Iter K V → List (Option (K × V))
  | [], _ => []
  | .next :: turns, iter => iter.next.1 :: iter.next.2.walk turns
  | .nextBack :: turns, iter => iter.nextBack.1 :: iter.nextBack.2.walk turns

/-- The first calls of a consuming iterator. -/
def IntoIter.walk : Nat → Node K V → List (Option (K × V))
  | 0, _ => []
  | count + 1, node => node.popFirst.1 :: IntoIter.walk count node.popFirst.2

/-- An operation on maps that are named by numbers. An iterator borrows its map, so all its calls
are one operation; a consuming iterator works on a copy. -/
inductive Operation (K V : Type)
  | insert (i : Nat) (key : K) (value : V)
  | remove (i : Nat) (key : MerkleKey)
  | get (i : Nat) (key : MerkleKey)
  | getMut (i : Nat) (key : MerkleKey) (change : V → V)
  | getOrDefault (i : Nat) (key : K) (change : V → V)
  | containsKey (i : Nat) (key : MerkleKey)
  | len (i : Nat)
  | isEmpty (i : Nat)
  | clone (i j : Nat)
  | range (i : Nat) (startBound endBound : Bound) (turns : List Turn)
  | intoIter (i : Nat) (count : Nat)

inductive Outcome (K V : Type)
  | entry (entry : Option (K × V))
  | value (value : Option V)
  | flag (flag : Bool)
  | size (size : Nat)
  | entries (entries : List (Option (K × V)))
  | done

section

variable [ToMerkleKey K] [Inhabited V]

def Operation.perform (maps : Nat → MerkleMap K V) :
    Operation K V → Option ((Nat → MerkleMap K V) × Outcome K V)
  | .insert i key value => do
    let (map, v) ← (maps i).insert key value
    return (Function.update maps i map, .entry v)
  | .remove i key =>
    let (map, v) := (maps i).remove key
    some (Function.update maps i map, .entry v)
  | .get i key => some (maps, .value ((maps i).get key))
  | .getMut i key change =>
    let (map, v) := (maps i).getMut key change
    some (Function.update maps i map, .value v)
  | .getOrDefault i key change => do
    let (map, v) ← (maps i).getOrDefault key change
    return (Function.update maps i map, .value (some v))
  | .containsKey i key => some (maps, .flag ((maps i).containsKey key))
  | .len i => some (maps, .size (maps i).len)
  | .isEmpty i => some (maps, .flag (maps i).isEmpty)
  | .clone i j => some (Function.update maps j (maps i), .done)
  | .range i startBound endBound turns =>
    some (maps, .entries (((maps i).range startBound endBound).walk turns))
  | .intoIter i count => some (maps, .entries (IntoIter.walk count (maps i).node))

/-- A program, with what its operations return. -/
def runOperations : List (Operation K V) → (Nat → MerkleMap K V) →
    Option ((Nat → MerkleMap K V) × List (Outcome K V))
  | [], maps => some (maps, [])
  | operation :: operations, maps => do
    let (maps, outcome) ← operation.perform maps
    let (maps, outcomes) ← runOperations operations maps
    return (maps, outcome :: outcomes)

end

/-! ## The same on sorted maps -/

/-- A finite map from Merkle keys to the keys and values of a program. -/
abbrev EntryMap (K V : Type) := SortedMap MerkleKey (K × V)

/-- Elements taken from both ends of a list. -/
def takeEnds {α : Type} : List Turn → List α → List (Option α)
  | [], _ => []
  | .next :: turns, l => l.head? :: takeEnds turns l.tail
  | .nextBack :: turns, l => l.getLast? :: takeEnds turns l.dropLast

def takeFirst {α : Type} : Nat → List α → List (Option α)
  | 0, _ => []
  | count + 1, l => l.head? :: takeFirst count l.tail

namespace EntryMap

def changeAt (key : MerkleKey) (change : V → V) (m : EntryMap K V) : EntryMap K V :=
  match m.get? key with
  | none => m
  | some (k, value) => m.insert key (k, change value)

def between (startBound endBound : Bound) (m : EntryMap K V) : List (K × V) :=
  (m.toList.filter fun p => startBound.allowsFrom p.1 && endBound.allowsTo p.1).map Prod.snd

variable [ToMerkleKey K] [Inhabited V]

def perform (maps : Nat → EntryMap K V) :
    Operation K V → (Nat → EntryMap K V) × Outcome K V
  | .insert i key value =>
    let keyBytes := ToMerkleKey.toMerkleKey key
    (Function.update maps i ((maps i).insert keyBytes (key, value)),
      .entry ((maps i).get? keyBytes))
  | .remove i key =>
    (Function.update maps i ((maps i).erase key), .entry ((maps i).get? key))
  | .get i key => (maps, .value (((maps i).get? key).map Prod.snd))
  | .getMut i key change =>
    (Function.update maps i (changeAt key change (maps i)),
      .value (((maps i).get? key).map Prod.snd))
  | .getOrDefault i key change =>
    let keyBytes := ToMerkleKey.toMerkleKey key
    match (maps i).get? keyBytes with
    | some (_, value) =>
      (Function.update maps i (changeAt keyBytes change (maps i)), .value (some value))
    | none =>
      (Function.update maps i ((maps i).insert keyBytes (key, change default)),
        .value (some default))
  | .containsKey i key => (maps, .flag ((maps i).contains key))
  | .len i => (maps, .size (maps i).toList.length)
  | .isEmpty i => (maps, .flag (maps i).toList.isEmpty)
  | .clone i j => (Function.update maps j (maps i), .done)
  | .range i startBound endBound turns =>
    (maps, .entries (takeEnds turns (between startBound endBound (maps i))))
  | .intoIter i count => (maps, .entries (takeFirst count (maps i).values))

def run : List (Operation K V) → (Nat → EntryMap K V) → (Nat → EntryMap K V) × List (Outcome K V)
  | [], maps => (maps, [])
  | operation :: operations, maps =>
    let (maps, outcome) := perform maps operation
    let (maps, outcomes) := run operations maps
    (maps, outcome :: outcomes)

end EntryMap

/-! ## Iterators -/

/-- An iterator gives what is left from both ends. -/
theorem Iter.walk_eq {iter : Iter K V} (hvalid : iter.node.Valid []) (turns : List Turn) :
    iter.walk turns = takeEnds turns (iter.window.map LeafEntry.pair) := by
  induction turns generalizing iter with
  | nil => rfl
  | cons turn turns ih =>
    cases turn with
    | next =>
      obtain ⟨hfirst, hwindow, hnode⟩ := iter.next_spec hvalid
      rw [Iter.walk, takeEnds, hfirst, List.head?_map, ih (hnode ▸ hvalid), hwindow, List.map_tail]
    | nextBack =>
      obtain ⟨hlast, hwindow, hnode⟩ := iter.nextBack_spec hvalid
      rw [Iter.walk, takeEnds, hlast, List.getLast?_map, ih (hnode ▸ hvalid), hwindow,
        List.map_dropLast]

theorem IntoIter.walk_eq (node : Node K V) (count : Nat) :
    IntoIter.walk count node = takeFirst count (node.entries.map LeafEntry.pair) := by
  induction count generalizing node with
  | zero => rfl
  | succ count ih =>
    obtain ⟨hfirst, hrest⟩ := node.popFirst_spec
    rw [IntoIter.walk, takeFirst, hfirst, List.head?_map, ih, hrest, List.map_tail]

/-! ## Representation -/

section Representation

variable [ToMerkleKey K] {map : MerkleMap K V} {m : EntryMap K V} {key : MerkleKey}

/-- The entry of a map, with its key. -/
def LeafEntry.assoc (entry : LeafEntry K V) : MerkleKey × (K × V) := (entry.keyBytes, entry.pair)

/-- The keys of a finite map. -/
def EntryMap.keySet (m : EntryMap K V) : Finset MerkleKey := m.keys.toFinset

omit [ToMerkleKey K] in
theorem EntryMap.mem_keySet : key ∈ m.keySet ↔ ∃ p, (key, p) ∈ m.toList := by
  rw [keySet, List.mem_toFinset, SortedMap.keys, List.mem_map]
  constructor
  · rintro ⟨⟨_, p⟩, hmem, rfl⟩
    exact ⟨p, hmem⟩
  · rintro ⟨p, hmem⟩
    exact ⟨(key, p), hmem, rfl⟩

/-- There is room for one more key. -/
def EntryMap.RoomFor (m : EntryMap K V) (key : MerkleKey) : Prop := Roomy (insert key m.keySet)

omit [ToMerkleKey K] in
theorem EntryMap.keySet_insert (m : EntryMap K V) (key : MerkleKey) (p : K × V) :
    EntryMap.keySet (SortedMap.insert m key p) = insert key m.keySet := by
  ext key'
  rw [Finset.mem_insert, mem_keySet, mem_keySet]
  constructor
  · rintro ⟨p', hp'⟩
    rcases SortedMap.mem_insert.mp hp' with heq | ⟨-, hp'⟩
    · exact .inl (congrArg Prod.fst heq)
    · exact .inr ⟨p', hp'⟩
  · rintro (rfl | ⟨p', hp'⟩)
    · exact ⟨p, SortedMap.mem_insert.mpr (.inl rfl)⟩
    · by_cases hkey : key' = key
      · exact ⟨p, SortedMap.mem_insert.mpr (.inl (by rw [hkey]))⟩
      · exact ⟨p', SortedMap.mem_insert.mpr (.inr ⟨hkey, hp'⟩)⟩

omit [ToMerkleKey K] in
theorem EntryMap.keySet_erase_subset (m : EntryMap K V) (key : MerkleKey) :
    EntryMap.keySet (SortedMap.erase m key) ⊆ m.keySet := fun key' hkey' => by
  obtain ⟨p, hp⟩ := mem_keySet.mp hkey'
  exact mem_keySet.mpr ⟨p, (SortedMap.mem_erase.mp hp).2⟩

omit [ToMerkleKey K] in
theorem EntryMap.keySet_changeAt (m : EntryMap K V) (key : MerkleKey) (change : V → V) :
    (m.changeAt key change).keySet = m.keySet := by
  unfold changeAt
  cases hget : m.get? key with
  | none => rfl
  | some p =>
    simp only
    rw [keySet_insert, Finset.insert_eq_of_mem]
    exact mem_keySet.mpr ⟨p, SortedMap.get?_eq_some.mp hget⟩

/-- The tree satisfies its invariant and holds the entries of the finite map, whose keys leave room
on the last level. -/
structure Holds (map : MerkleMap K V) (m : EntryMap K V) : Prop where
  valid : map.node.Valid []
  entries : m.toList = map.node.entries.map LeafEntry.assoc
  keyed : ∀ entry ∈ map.node.entries, entry.keyBytes = ToMerkleKey.toMerkleKey entry.key
  roomy : Roomy m.keySet

theorem holds_new : Holds (MerkleMap.new : MerkleMap K V) ∅ where
  valid := Node.valid_default
  entries := rfl
  keyed _ h := nomatch h
  roomy := roomy_of_card (Nat.zero_le _)

namespace Holds

theorem mem (h : Holds map m) {p : K × V} :
    (key, p) ∈ m.toList ↔ ∃ entry ∈ map.node.entries, entry.keyBytes = key ∧ entry.pair = p := by
  rw [h.entries, List.mem_map]
  constructor
  · rintro ⟨entry, hmem, heq⟩
    obtain ⟨rfl, rfl⟩ := Prod.mk.inj heq
    exact ⟨entry, hmem, rfl, rfl⟩
  · rintro ⟨entry, hmem, rfl, rfl⟩
    exact ⟨entry, hmem, rfl⟩

theorem keysOf_eq (h : Holds map m) : keysOf map.node.entries = m.keySet := by
  ext key
  rw [mem_keysOf, EntryMap.mem_keySet]
  constructor
  · rintro ⟨x, hx, rfl⟩
    exact ⟨x.pair, h.mem.mpr ⟨x, hx, rfl, rfl⟩⟩
  · rintro ⟨p, hp⟩
    obtain ⟨x, hx, hkey, -⟩ := h.mem.mp hp
    exact ⟨x, hx, hkey⟩

theorem get? (h : Holds map m) (key : MerkleKey) :
    m.get? key = (map.node.get key 0).map LeafEntry.pair := by
  ext p
  rw [SortedMap.get?_eq_some, h.mem, Option.map_eq_some_iff]
  constructor
  · rintro ⟨entry, hmem, hkey, hpair⟩
    exact ⟨entry, (h.valid.get List.nil_prefix).mpr ⟨hmem, hkey⟩, hpair⟩
  · rintro ⟨entry, hget, hpair⟩
    obtain ⟨hmem, hkey⟩ := (h.valid.get List.nil_prefix).mp hget
    exact ⟨entry, hmem, hkey, hpair⟩

omit [ToMerkleKey K] in
/-- The entries of a valid tree are the list of a map with the same entries. -/
theorem of_mem {node : Node K V} (hvalid : node.Valid [])
    (hmem : ∀ key p, (key, p) ∈ m.toList ↔
      ∃ entry ∈ node.entries, entry.keyBytes = key ∧ entry.pair = p) :
    m.toList = node.entries.map LeafEntry.assoc := by
  refine SortedMap.toList_eq_of_mem (List.pairwise_map.mpr hvalid.sorted) fun ⟨key, p⟩ => ?_
  rw [hmem, List.mem_map]
  constructor
  · rintro ⟨entry, hentry, rfl, rfl⟩
    exact ⟨entry, hentry, rfl⟩
  · rintro ⟨entry, hentry, heq⟩
    obtain ⟨rfl, rfl⟩ := Prod.mk.inj heq
    exact ⟨entry, hentry, rfl, rfl⟩

theorem insert (h : Holds map m) {key : K} (value : V)
    (hroomy : m.RoomFor (ToMerkleKey.toMerkleKey key)) :
    ∃ map', map.insert key value = some (map', m.get? (ToMerkleKey.toMerkleKey key)) ∧
      Holds map' (SortedMap.insert m (ToMerkleKey.toMerkleKey key) (key, value)) := by
  let entry : LeafEntry K V := ⟨ToMerkleKey.toMerkleKey key, key, value⟩
  have hroomy' : RoomFor entry map.node.entries := by
    rw [RoomFor, h.keysOf_eq]
    exact hroomy
  have hinsert : NodeInserts (K := K) (V := V) [] (Node.insertWith (TreeContents.insert maxDepth)) :=
    Node.insert_spec rfl
  obtain ⟨node, old, hrun, hvalid, hinserted⟩ :=
    (hinsert entry map.node h.valid List.nil_prefix (h.keysOf_eq ▸ h.roomy)).1 hroomy'
  have hold : old = m.get? (ToMerkleKey.toMerkleKey key) := by
    cases old with
    | none =>
      refine (SortedMap.get?_eq_none.mpr fun p hp => ?_).symm
      obtain ⟨x, hx, hkey, -⟩ := h.mem.mp hp
      exact hinserted.fresh rfl x hx hkey
    | some pair =>
      obtain ⟨x, hx, hkey, hpair⟩ := hinserted.replaced pair rfl
      exact (SortedMap.get?_eq_some.mpr (h.mem.mpr ⟨x, hx, hkey, hpair⟩)).symm
  refine ⟨⟨node⟩, ?_, hvalid, of_mem hvalid fun k p => ?_, fun x hx => ?_,
    EntryMap.keySet_insert m _ (key, value) ▸ hroomy⟩
  · have : map.node.insert maxDepth entry = some (node, old) := hrun
    simp only [MerkleMap.insert]
    change (map.node.insert maxDepth entry >>= _) = _
    rw [this, hold]
    rfl
  · rw [SortedMap.mem_insert]
    constructor
    · rintro (heq | ⟨hne, hp⟩)
      · obtain ⟨rfl, rfl⟩ := Prod.mk.inj heq
        exact ⟨entry, (hinserted.mem entry).mpr (.inl rfl), rfl, rfl⟩
      · obtain ⟨x, hx, hkey, hpair⟩ := h.mem.mp hp
        exact ⟨x, (hinserted.mem x).mpr (.inr ⟨hx, fun hkey' => hne (hkey.symm.trans hkey')⟩), hkey,
          hpair⟩
    · rintro ⟨x, hx, rfl, rfl⟩
      rcases (hinserted.mem x).mp hx with rfl | ⟨hx, hne⟩
      · exact .inl rfl
      · exact .inr ⟨hne, h.mem.mpr ⟨x, hx, rfl, rfl⟩⟩
  · rcases (hinserted.mem x).mp hx with rfl | ⟨hx, -⟩
    · rfl
    · exact h.keyed x hx

/-- A key for which there is no room is not inserted. -/
theorem insert_panics (h : Holds map m) {key : K} (value : V)
    (hroomy : ¬m.RoomFor (ToMerkleKey.toMerkleKey key)) :
    map.insert key value = none := by
  let entry : LeafEntry K V := ⟨ToMerkleKey.toMerkleKey key, key, value⟩
  have hinsert : NodeInserts (K := K) (V := V) [] (Node.insertWith (TreeContents.insert maxDepth)) :=
    Node.insert_spec rfl
  have hroomy' : ¬RoomFor entry map.node.entries := by
    rw [RoomFor, h.keysOf_eq]
    exact hroomy
  have hnone : map.node.insert maxDepth entry = none :=
    (hinsert entry map.node h.valid List.nil_prefix (h.keysOf_eq ▸ h.roomy)).2 hroomy'
  simp only [MerkleMap.insert]
  change (map.node.insert maxDepth entry >>= _) = _
  rw [hnone]
  rfl

theorem remove (h : Holds map m) (key : MerkleKey) :
    (map.remove key).2 = m.get? key ∧ Holds (map.remove key).1 (SortedMap.erase m key) := by
  obtain ⟨hvalid, hremoved⟩ : (map.node.remove key 0).1.Valid [] ∧
      Removed key map.node.entries (map.node.remove key 0).1.entries
        (map.node.remove key 0).2 := h.valid.remove List.nil_prefix
  have hv : (map.node.remove key 0).2 = m.get? key := by
    cases hresult : (map.node.remove key 0).2 with
    | none =>
      refine (SortedMap.get?_eq_none.mpr fun p hp => ?_).symm
      obtain ⟨x, hx, hkey, -⟩ := h.mem.mp hp
      exact hremoved.absent hresult x hx hkey
    | some pair =>
      obtain ⟨x, hx, hkey, hpair⟩ := hremoved.removed pair hresult
      exact (SortedMap.get?_eq_some.mpr (h.mem.mpr ⟨x, hx, hkey, hpair⟩)).symm
  refine ⟨hv, hvalid, of_mem hvalid fun k p => ?_, fun x hx => ?_,
    h.roomy.mono (EntryMap.keySet_erase_subset m key)⟩
  · rw [SortedMap.mem_erase]
    constructor
    · rintro ⟨hne, hp⟩
      obtain ⟨x, hx, hkey, hpair⟩ := h.mem.mp hp
      exact ⟨x, (hremoved.mem x).mpr ⟨hx, fun hkey' => hne (hkey.symm.trans hkey')⟩, hkey, hpair⟩
    · rintro ⟨x, hx, rfl, rfl⟩
      obtain ⟨hx, hne⟩ := (hremoved.mem x).mp hx
      exact ⟨hne, h.mem.mpr ⟨x, hx, rfl, rfl⟩⟩
  · exact h.keyed x ((hremoved.mem x).mp hx).1

theorem get (h : Holds map m) (key : MerkleKey) :
    map.get key = (m.get? key).map Prod.snd := by
  rw [h.get?, MerkleMap.get, Option.map_map]
  rfl

theorem getMut (h : Holds map m) (key : MerkleKey) (change : V → V) :
    (map.getMut key change).2 = (m.get? key).map Prod.snd ∧
      Holds (map.getMut key change).1 (m.changeAt key change) := by
  obtain ⟨hvalid, hchanged⟩ : (map.node.getMut key change 0).1.Valid [] ∧
      Changed key change map.node.entries (map.node.getMut key change 0).1.entries
        (map.node.getMut key change 0).2 := h.valid.getMut List.nil_prefix
  have hentries : ∀ x, x ∈ (map.node.getMut key change 0).1.entries ↔
      ∃ y ∈ map.node.entries, y.changeAt key change = x := fun x => by
    rw [hchanged.entries, List.mem_map]
  have hv : (map.node.getMut key change 0).2 = (m.get? key).map Prod.snd := by
    cases hresult : (map.node.getMut key change 0).2 with
    | none =>
      have hnone : m.get? key = none := SortedMap.get?_eq_none.mpr fun p hp => by
        obtain ⟨x, hx, hkey, -⟩ := h.mem.mp hp
        exact hchanged.absent hresult x hx hkey
      rw [hnone]
      rfl
    | some value =>
      obtain ⟨x, hx, hkey, rfl⟩ := hchanged.found value hresult
      rw [SortedMap.get?_eq_some.mpr (h.mem.mpr ⟨x, hx, hkey, rfl⟩)]
      rfl
  refine ⟨hv, hvalid, of_mem hvalid fun k p => ?_, fun x hx => ?_,
    (EntryMap.keySet_changeAt m key change).symm ▸ h.roomy⟩
  · unfold EntryMap.changeAt
    cases hget : m.get? key with
    | none =>
      have habsent : ∀ x ∈ map.node.entries, x.keyBytes ≠ key := fun x hx hkey =>
        SortedMap.get?_eq_none.mp hget x.pair (h.mem.mpr ⟨x, hx, hkey, rfl⟩)
      have hsame : (map.getMut key change).1.node.entries = map.node.entries :=
        hchanged.entries.trans (map_changeAt_of_absent habsent)
      rw [hsame]
      exact h.mem
    | some old =>
      obtain ⟨y, hy, rfl, rfl⟩ := h.mem.mp (SortedMap.get?_eq_some.mp hget)
      have hy' : y.changeAt y.keyBytes change = { y with value := change y.value } := if_pos rfl
      rw [SortedMap.mem_insert]
      constructor
      · rintro (heq | ⟨hne, hp⟩)
        · obtain ⟨rfl, rfl⟩ := Prod.mk.inj heq
          exact ⟨_, (hentries _).mpr ⟨y, hy, hy'⟩, rfl, rfl⟩
        · obtain ⟨x, hx, rfl, rfl⟩ := h.mem.mp hp
          exact ⟨x, (hentries x).mpr ⟨x, hx, LeafEntry.changeAt_of_ne hne⟩, rfl, rfl⟩
      · rintro ⟨_, hmem, rfl, rfl⟩
        obtain ⟨x, hx, rfl⟩ := (hentries _).mp hmem
        by_cases hkey : x.keyBytes = y.keyBytes
        · obtain rfl := eq_of_keyBytes h.valid.sorted hx hy hkey
          rw [hy']
          exact .inl rfl
        · rw [LeafEntry.changeAt_of_ne hkey]
          exact .inr ⟨hkey, h.mem.mpr ⟨x, hx, rfl, rfl⟩⟩
  · obtain ⟨y, hy, rfl⟩ := (hentries x).mp hx
    unfold LeafEntry.changeAt
    split <;> exact h.keyed y hy

theorem getOrDefault_present [Inhabited V] (h : Holds map m) {key k : K} {value : V}
    (change : V → V) (hget : m.get? (ToMerkleKey.toMerkleKey key) = some (k, value)) :
    ∃ map', map.getOrDefault key change = some (map', value) ∧
      Holds map' (m.changeAt (ToMerkleKey.toMerkleKey key) change) := by
  have hlookup := h.get? (ToMerkleKey.toMerkleKey key)
  obtain ⟨hv, hmap⟩ := h.getMut (ToMerkleKey.toMerkleKey key) change
  rw [hget] at hlookup hv
  have hsome : (map.node.get (ToMerkleKey.toMerkleKey key) 0).isSome = true := by
    rw [← Option.isSome_map, ← hlookup]
    rfl
  refine ⟨_, ?_, hmap⟩
  simp only [MerkleMap.getOrDefault, MerkleMap.getOrInsert, if_pos hsome, hv]
  rfl

theorem getOrDefault_absent [Inhabited V] (h : Holds map m) {key : K} (change : V → V)
    (hroomy : m.RoomFor (ToMerkleKey.toMerkleKey key))
    (hget : m.get? (ToMerkleKey.toMerkleKey key) = none) :
    ∃ map', map.getOrDefault key change = some (map', default) ∧
      Holds map'
        (SortedMap.insert m (ToMerkleKey.toMerkleKey key) (key, change default)) := by
  have hlookup := h.get? (ToMerkleKey.toMerkleKey key)
  rw [hget] at hlookup
  have hnone : ¬(map.node.get (ToMerkleKey.toMerkleKey key) 0).isSome = true := by
    rw [← Option.isSome_map (f := LeafEntry.pair), ← hlookup]
    simp
  obtain ⟨map₁, hrun, h₁⟩ := h.insert default hroomy
  obtain ⟨hv, hmap⟩ := h₁.getMut (ToMerkleKey.toMerkleKey key) change
  rw [SortedMap.get?_insert_self] at hv
  simp only [EntryMap.changeAt, SortedMap.get?_insert_self, SortedMap.insert_insert] at hmap
  refine ⟨_, ?_, hmap⟩
  simp only [MerkleMap.getOrDefault, MerkleMap.getOrInsert, if_neg hnone, hrun, hv,
    Option.bind_eq_bind, Option.bind_some]
  rfl

theorem getOrDefault_panics [Inhabited V] (h : Holds map m) {key : K} (change : V → V)
    (hroomy : ¬m.RoomFor (ToMerkleKey.toMerkleKey key))
    (hget : m.get? (ToMerkleKey.toMerkleKey key) = none) : map.getOrDefault key change = none := by
  have hlookup := h.get? (ToMerkleKey.toMerkleKey key)
  rw [hget] at hlookup
  have hnone : ¬(map.node.get (ToMerkleKey.toMerkleKey key) 0).isSome = true := by
    rw [← Option.isSome_map (f := LeafEntry.pair), ← hlookup]
    simp
  simp only [MerkleMap.getOrDefault, MerkleMap.getOrInsert, if_neg hnone,
    h.insert_panics default hroomy, Option.bind_eq_bind, Option.bind_none]

theorem len (h : Holds map m) : map.len = m.toList.length := by
  rw [h.entries, List.length_map]
  exact h.valid.len_eq

theorem isEmpty (h : Holds map m) : map.isEmpty = m.toList.isEmpty := by
  have hlen := h.len
  have hvalid := h.valid
  unfold MerkleMap.isEmpty
  unfold MerkleMap.len at hlen
  cases hnode : map.node with
  | leaf values =>
    rw [h.entries, hnode]
    cases values <;> rfl
  | tree len own branches =>
    rw [hnode] at hvalid hlen
    obtain ⟨large, -⟩ := Node.valid_tree.mp (show (TreeContents.mk len own branches).node.Valid [] from
      hvalid)
    cases hlist : m.toList with
    | nil =>
      have hzero : len = 0 := by
        rw [hlist] at hlen
        exact hlen
      exact absurd large (by simp [hzero])
    | cons p l => rfl

theorem range (h : Holds map m) (startBound endBound : Bound) (turns : List Turn) :
    (map.range startBound endBound).walk turns =
      takeEnds turns (m.between startBound endBound) := by
  have hvalid : (map.range startBound endBound).node.Valid [] := h.valid
  rw [Iter.walk_eq hvalid, EntryMap.between, h.entries, List.filter_map, List.map_map]
  rfl

theorem intoIter (h : Holds map m) (count : Nat) :
    IntoIter.walk count map.node = takeFirst count m.values := by
  rw [IntoIter.walk_eq, SortedMap.values, h.entries, List.map_map]
  rfl

end Holds

/-- The tree satisfies its invariant and holds the entries of the finite map. -/
structure Represents (map : MerkleMap K V) (m : EntryMap K V) : Prop where
  valid : map.node.Valid []
  entries : m.toList = map.node.entries.map LeafEntry.assoc
  keyed : ∀ entry ∈ map.node.entries, entry.keyBytes = ToMerkleKey.toMerkleKey entry.key
  fits : ∀ entry ∈ map.node.entries, entry.keyBytes.Fits

theorem represents_new : Represents (MerkleMap.new : MerkleMap K V) ∅ where
  valid := Node.valid_default
  entries := rfl
  keyed _ h := nomatch h
  fits _ h := nomatch h

namespace Represents

omit [ToMerkleKey K] in
theorem roomFor_of_fits (hm : ∀ key ∈ m.keySet, key.Fits) (hkey : key.Fits) : m.RoomFor key :=
  roomy_of_fits fun key' hkey' => by
    rcases Finset.mem_insert.mp hkey' with rfl | hkey'
    · exact hkey
    · exact hm key' hkey'

theorem mem (h : Represents map m) {p : K × V} :
    (key, p) ∈ m.toList ↔ ∃ entry ∈ map.node.entries, entry.keyBytes = key ∧ entry.pair = p := by
  rw [h.entries, List.mem_map]
  constructor
  · rintro ⟨entry, hmem, heq⟩
    obtain ⟨rfl, rfl⟩ := Prod.mk.inj heq
    exact ⟨entry, hmem, rfl, rfl⟩
  · rintro ⟨entry, hmem, rfl, rfl⟩
    exact ⟨entry, hmem, rfl⟩

theorem fits_keySet (h : Represents map m) : ∀ key ∈ m.keySet, key.Fits := fun key hkey => by
  obtain ⟨p, hp⟩ := EntryMap.mem_keySet.mp hkey
  obtain ⟨x, hx, rfl, -⟩ := h.mem.mp hp
  exact h.fits x hx

theorem holds (h : Represents map m) : Holds map m :=
  ⟨h.valid, h.entries, h.keyed, roomy_of_fits h.fits_keySet⟩

end Represents

theorem Holds.represents (h : Holds map m) (hfits : ∀ key ∈ m.keySet, key.Fits) :
    Represents map m :=
  ⟨h.valid, h.entries, h.keyed, fun x hx =>
    hfits _ (EntryMap.mem_keySet.mpr ⟨x.pair, h.mem.mpr ⟨x, hx, rfl, rfl⟩⟩)⟩

theorem Represents.insert (h : Represents map m) {key : K} (value : V)
    (hfits : (ToMerkleKey.toMerkleKey key).Fits) :
    ∃ map', map.insert key value = some (map', m.get? (ToMerkleKey.toMerkleKey key)) ∧
      Represents map' (SortedMap.insert m (ToMerkleKey.toMerkleKey key) (key, value)) := by
  obtain ⟨map', hrun, h'⟩ := h.holds.insert value (roomFor_of_fits h.fits_keySet hfits)
  refine ⟨map', hrun, h'.represents fun key' hkey' => ?_⟩
  rw [EntryMap.keySet_insert, Finset.mem_insert] at hkey'
  rcases hkey' with rfl | hkey'
  · exact hfits
  · exact h.fits_keySet key' hkey'

end Representation

/-! ## Simulation -/

section Simulation

variable [ToMerkleKey K] [Inhabited V]

/-- The keys that an operation can add are shorter than 16384 bytes. -/
def Operation.Short : Operation K V → Prop
  | .insert _ key _ => (ToMerkleKey.toMerkleKey key).bytes.length < 16384
  | .getOrDefault _ key _ => (ToMerkleKey.toMerkleKey key).bytes.length < 16384
  | _ => True

theorem fits_of_short {key : MerkleKey} (h : key.bytes.length < 16384) : key.Fits := by
  rw [MerkleKey.Fits, MerkleKey.length_nibbles, maxDepth]
  omega

omit [Inhabited V] in
theorem holds_update {maps : Nat → MerkleMap K V} {ms : Nat → EntryMap K V}
    (h : ∀ i, Holds (maps i) (ms i)) {i : Nat} {map : MerkleMap K V} {m : EntryMap K V}
    (hmap : Holds map m) (j : Nat) :
    Holds (Function.update maps i map j) (Function.update ms i m j) := by
  by_cases hj : j = i
  · subst hj
    rwa [Function.update_self, Function.update_self]
  · rw [Function.update_of_ne hj, Function.update_of_ne hj]
    exact h j

/-- The keys of all maps leave room on the last level. -/
def AllRoomy (ms : Nat → EntryMap K V) : Prop := ∀ i, Roomy (ms i).keySet

/-- An operation succeeds if it leaves room, and panics otherwise. -/
def Operation.Simulates (operation : Operation K V) (maps : Nat → MerkleMap K V)
    (ms : Nat → EntryMap K V) : Prop :=
  (AllRoomy (EntryMap.perform ms operation).1 →
    ∃ maps', operation.perform maps = some (maps', (EntryMap.perform ms operation).2) ∧
      ∀ i, Holds (maps' i) ((EntryMap.perform ms operation).1 i)) ∧
  (¬AllRoomy (EntryMap.perform ms operation).1 → operation.perform maps = none)

theorem Operation.Simulates.of_some {operation : Operation K V} {maps : Nat → MerkleMap K V}
    {ms : Nat → EntryMap K V}
    (h : ∃ maps', operation.perform maps = some (maps', (EntryMap.perform ms operation).2) ∧
      ∀ i, Holds (maps' i) ((EntryMap.perform ms operation).1 i)) :
    operation.Simulates maps ms := by
  refine ⟨fun _ => h, fun hroomy => absurd (fun i => ?_) hroomy⟩
  obtain ⟨maps', -, hholds⟩ := h
  exact (hholds i).roomy

omit [ToMerkleKey K] [Inhabited V] in
/-- A map in which a key without room was put is not roomy. -/
theorem not_allRoomy_update {ms : Nat → EntryMap K V} {i : Nat} {key : MerkleKey} {p : K × V}
    (h : ¬(ms i).RoomFor key) :
    ¬AllRoomy (Function.update ms i (SortedMap.insert (ms i) key p)) := by
  intro hroomy
  have hi := hroomy i
  rw [Function.update_self, EntryMap.keySet_insert] at hi
  exact h hi

omit [ToMerkleKey K] [Inhabited V] in
theorem roomFor_of_update {ms : Nat → EntryMap K V} {i : Nat} {key : MerkleKey} {p : K × V}
    (h : AllRoomy (Function.update ms i (SortedMap.insert (ms i) key p))) :
    (ms i).RoomFor key := by
  by_contra hroom
  exact not_allRoomy_update hroom h

/-- One operation. -/
theorem perform_simulates {maps : Nat → MerkleMap K V} {ms : Nat → EntryMap K V}
    (h : ∀ i, Holds (maps i) (ms i)) (operation : Operation K V) :
    operation.Simulates maps ms := by
  cases operation with
  | insert i key value =>
    refine ⟨fun hroomy => ?_, fun hroomy => ?_⟩
    · obtain ⟨map, hrun, hmap⟩ := (h i).insert value (roomFor_of_update hroomy)
      refine ⟨_, ?_, holds_update h hmap⟩
      simp only [Operation.perform, hrun]
      rfl
    · have hroom : ¬(ms i).RoomFor (ToMerkleKey.toMerkleKey key) := fun hroom =>
        hroomy fun j => by
          obtain ⟨map, -, hmap⟩ := (h i).insert value hroom
          exact (holds_update h hmap j).roomy
      simp only [Operation.perform, (h i).insert_panics value hroom]
      rfl
  | remove i key =>
    obtain ⟨hv, hmap⟩ := (h i).remove key
    refine .of_some ⟨_, ?_, holds_update h hmap⟩
    simp only [Operation.perform, hv]
    rfl
  | get i key => exact .of_some ⟨maps, by rw [Operation.perform, (h i).get]; rfl, h⟩
  | getMut i key change =>
    obtain ⟨hv, hmap⟩ := (h i).getMut key change
    refine .of_some ⟨_, ?_, holds_update h hmap⟩
    simp only [Operation.perform, hv]
    rfl
  | getOrDefault i key change =>
    simp only [Operation.Simulates, Operation.perform, EntryMap.perform]
    cases hget : (ms i).get? (ToMerkleKey.toMerkleKey key) with
    | some p =>
      obtain ⟨map, hrun, hmap⟩ := (h i).getOrDefault_present change hget
      rw [hrun]
      exact ⟨fun _ => ⟨_, rfl, holds_update h hmap⟩,
        fun hroomy => absurd (fun j => (holds_update h hmap j).roomy) hroomy⟩
    | none =>
      refine ⟨fun hroomy => ?_, fun hroomy => ?_⟩
      · obtain ⟨map, hrun, hmap⟩ :=
          (h i).getOrDefault_absent change (roomFor_of_update hroomy) hget
        rw [hrun]
        exact ⟨_, rfl, holds_update h hmap⟩
      · have hroom : ¬(ms i).RoomFor (ToMerkleKey.toMerkleKey key) := fun hroom =>
          hroomy fun j => by
            obtain ⟨map, -, hmap⟩ := (h i).getOrDefault_absent change hroom hget
            exact (holds_update h hmap j).roomy
        rw [(h i).getOrDefault_panics change hroom hget]
        rfl
  | containsKey i key =>
    refine .of_some ⟨maps, ?_, h⟩
    rw [Operation.perform, MerkleMap.containsKey, (h i).get, Option.isSome_map]
    rfl
  | len i => exact .of_some ⟨maps, by rw [Operation.perform, (h i).len]; rfl, h⟩
  | isEmpty i => exact .of_some ⟨maps, by rw [Operation.perform, (h i).isEmpty]; rfl, h⟩
  | clone i j => exact .of_some ⟨_, rfl, holds_update h (h i)⟩
  | range i startBound endBound turns =>
    exact .of_some ⟨maps, by rw [Operation.perform, (h i).range]; rfl, h⟩
  | intoIter i count =>
    exact .of_some ⟨maps, by rw [Operation.perform, (h i).intoIter]; rfl, h⟩

/-- A program succeeds if every operation of it leaves room, and panics otherwise. -/
theorem runOperations_simulates (operations : List (Operation K V)) {maps : Nat → MerkleMap K V}
    {ms : Nat → EntryMap K V} (h : ∀ i, Holds (maps i) (ms i)) :
    ((∀ before, before <+: operations → AllRoomy (EntryMap.run before ms).1) →
      ∃ maps', runOperations operations maps = some (maps', (EntryMap.run operations ms).2) ∧
        ∀ i, Holds (maps' i) ((EntryMap.run operations ms).1 i)) ∧
    (¬(∀ before, before <+: operations → AllRoomy (EntryMap.run before ms).1) →
      runOperations operations maps = none) := by
  induction operations generalizing maps ms with
  | nil =>
    refine ⟨fun _ => ⟨maps, rfl, h⟩, fun hroomy => absurd (fun before hbefore => ?_) hroomy⟩
    obtain rfl := List.prefix_nil.mp hbefore
    exact fun i => (h i).roomy
  | cons operation operations ih =>
    obtain ⟨hsome, hnone⟩ := perform_simulates h operation
    by_cases hroomy : AllRoomy (EntryMap.perform ms operation).1
    · obtain ⟨maps₁, hperform, h₁⟩ := hsome hroomy
      obtain ⟨hok, hpanic⟩ := ih h₁
      -- What the rest of the program finds is what is found after one operation more.
      have hiff : (∀ before, before <+: operation :: operations →
          AllRoomy (EntryMap.run before ms).1) ↔
          ∀ before, before <+: operations →
            AllRoomy (EntryMap.run before (EntryMap.perform ms operation).1).1 := by
        constructor
        · exact fun hall before hbefore => hall (operation :: before)
            (List.cons_prefix_cons.mpr ⟨rfl, hbefore⟩)
        · intro hall before hbefore
          cases before with
          | nil => exact fun i => (h i).roomy
          | cons operation' before =>
            obtain ⟨rfl, hrest⟩ := List.cons_prefix_cons.mp hbefore
            exact hall before hrest
      rw [hiff]
      refine ⟨fun hall => ?_, fun hall => ?_⟩
      · obtain ⟨maps', hrun, h'⟩ := hok hall
        refine ⟨maps', ?_, h'⟩
        simp only [runOperations, hperform, Option.bind_eq_bind, Option.bind_some, hrun]
        rfl
      · simp only [runOperations, hperform, Option.bind_eq_bind, Option.bind_some, hpanic hall,
          Option.bind_none]
    · refine ⟨fun hall => absurd (hall [operation] ?_) hroomy, fun _ => ?_⟩
      · exact List.cons_prefix_cons.mpr ⟨rfl, List.nil_prefix⟩
      · simp only [runOperations, hnone hroomy, Option.bind_eq_bind, Option.bind_none]

/-- The keys that short operations put in the maps fit. -/
theorem fits_run {operations : List (Operation K V)}
    (hshort : ∀ operation ∈ operations, operation.Short) {ms : Nat → EntryMap K V}
    (h : ∀ i, ∀ key ∈ (ms i).keySet, key.Fits) :
    ∀ i, ∀ key ∈ ((EntryMap.run operations ms).1 i).keySet, key.Fits := by
  have of_update {ms : Nat → EntryMap K V} {i : Nat} {m : EntryMap K V}
      (h : ∀ i, ∀ key ∈ (ms i).keySet, key.Fits) (hm : ∀ key ∈ m.keySet, key.Fits) (j : Nat) :
      ∀ key ∈ (Function.update ms i m j).keySet, key.Fits := by
    by_cases hj : j = i
    · subst hj
      rwa [Function.update_self]
    · rw [Function.update_of_ne hj]
      exact h j
  have of_insert {m : EntryMap K V} {key : MerkleKey} {p : K × V}
      (hm : ∀ key ∈ m.keySet, key.Fits) (hkey : key.Fits) :
      ∀ key' ∈ EntryMap.keySet (SortedMap.insert m key p), key'.Fits := by
    intro key' hkey'
    rw [EntryMap.keySet_insert, Finset.mem_insert] at hkey'
    rcases hkey' with rfl | hkey'
    · exact hkey
    · exact hm key' hkey'
  induction operations generalizing ms with
  | nil => exact h
  | cons operation operations ih =>
    obtain ⟨hfirst, hrest⟩ := List.forall_mem_cons.mp hshort
    refine ih hrest ?_
    cases operation with
    | insert i key value => exact of_update h (of_insert (h i) (fits_of_short hfirst))
    | remove i key =>
      exact of_update h fun key' hkey' => h i key' (EntryMap.keySet_erase_subset _ _ hkey')
    | getMut i key change =>
      exact of_update h fun key' hkey' => h i key' (EntryMap.keySet_changeAt _ _ _ ▸ hkey')
    | getOrDefault i key change =>
      simp only
      split
      · exact of_update h fun key' hkey' => h i key' (EntryMap.keySet_changeAt _ _ _ ▸ hkey')
      · exact of_update h (of_insert (h i) (fits_of_short hfirst))
    | clone i j => exact of_update h (h i)
    | get | containsKey | len | isEmpty | range | intoIter => exact h

/-- Every program on Merkle maps returns what it returns on sorted maps, and after it every tree
satisfies its invariant and holds the entries of the sorted map. -/
theorem merkleMap_is_sortedMap (operations : List (Operation K V))
    (hshort : ∀ operation ∈ operations, operation.Short) :
    ∃ maps, runOperations operations (fun _ => MerkleMap.new) =
        some (maps, (EntryMap.run operations (fun _ => ∅)).2) ∧
      ∀ i, Represents (maps i) ((EntryMap.run operations (fun _ => ∅)).1 i) := by
  have hfits {before : List (Operation K V)} (hbefore : before <+: operations) :
      ∀ i, ∀ key ∈ ((EntryMap.run before (fun _ => ∅)).1 i).keySet, key.Fits :=
    fits_run (fun operation hmem => hshort operation (hbefore.subset hmem)) fun _ key hkey => by
      obtain ⟨p, hp⟩ := EntryMap.mem_keySet.mp hkey
      cases hp
  obtain ⟨maps, hrun, h⟩ := (runOperations_simulates operations fun _ => holds_new).1
    fun before hbefore i => roomy_of_fits (hfits hbefore i)
  exact ⟨maps, hrun, fun i => (h i).represents (hfits List.prefix_rfl i)⟩

end Simulation

namespace Sample

instance : ToMerkleKey UInt8 := ⟨fun key => ⟨[key]⟩⟩

/-- Two entries, a copy, a removal, and a walk from both ends of each map. -/
def operations : List (Operation UInt8 Nat) :=
  [.insert 0 7 70, .insert 0 3 30, .clone 0 1, .remove 0 ⟨[7]⟩, .getOrDefault 1 5 (· + 1),
    .range 0 .unbounded (.excluded ⟨[7]⟩) [.next, .next],
    .range 1 (.included ⟨[3]⟩) .unbounded [.nextBack, .next, .nextBack, .next]]

end Sample

theorem merkleMap_is_sortedMap_example :
    ∃ maps, runOperations Sample.operations (fun _ => MerkleMap.new) =
        some (maps, (EntryMap.run Sample.operations (fun _ => ∅)).2) ∧
      ∀ i, Represents (maps i) ((EntryMap.run Sample.operations (fun _ => ∅)).1 i) :=
  merkleMap_is_sortedMap Sample.operations (by
    simp [Sample.operations, Operation.Short, ToMerkleKey.toMerkleKey])

end Kolme.Merkle
