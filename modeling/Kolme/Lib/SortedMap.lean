import Mathlib.Order.Lattice
import Mathlib.Algebra.BigOperators.Group.List.Basic
import Mathlib.Data.List.Pairwise
import Mathlib.Tactic.Abel

/-!
# Maps ordered by their keys

A finite map is the list of its entries in increasing order of the keys, so equal maps are equal
lists, iteration has an order, and the last key is the greatest. Sums over all entries follow an
insertion through `sum_insert`.
-/

structure SortedMap (κ α : Type*) [LinearOrder κ] where
  toList : List (κ × α)
  sorted : toList.Pairwise (fun p q => p.1 < q.1)
deriving DecidableEq

namespace SortedMap

variable {κ α M : Type*} [LinearOrder κ]

def empty : SortedMap κ α := ⟨[], .nil⟩

instance : EmptyCollection (SortedMap κ α) := ⟨empty⟩

instance : Inhabited (SortedMap κ α) := ⟨empty⟩

/-- The value of a key. -/
def get? (m : SortedMap κ α) (k : κ) : Option α :=
  (m.toList.find? (fun p => p.1 = k)).map Prod.snd

/-- Set the value of a key, between the smaller and the greater keys. -/
def insert (m : SortedMap κ α) (k : κ) (v : α) : SortedMap κ α where
  toList := m.toList.filter (fun p => p.1 < k) ++ (k, v) :: m.toList.filter (fun p => k < p.1)
  sorted := by
    rw [List.pairwise_append, List.pairwise_cons]
    refine ⟨m.sorted.filter _, ⟨?_, m.sorted.filter _⟩, ?_⟩
    · intro q hq
      exact of_decide_eq_true (List.mem_filter.mp hq).2
    · intro p hp q hq
      have hpk : p.1 < k := of_decide_eq_true (List.mem_filter.mp hp).2
      rcases List.mem_cons.mp hq with rfl | hq
      · exact hpk
      · exact hpk.trans (of_decide_eq_true (List.mem_filter.mp hq).2)

def erase (m : SortedMap κ α) (k : κ) : SortedMap κ α where
  toList := m.toList.filter (fun p => p.1 ≠ k)
  sorted := m.sorted.filter _

def keys (m : SortedMap κ α) : List κ := m.toList.map Prod.fst

def values (m : SortedMap κ α) : List α := m.toList.map Prod.snd

def contains (m : SortedMap κ α) (k : κ) : Bool := (m.get? k).isSome

/-- The entries whose keys satisfy `p`. -/
def filter (m : SortedMap κ α) (p : κ → Bool) : SortedMap κ α where
  toList := m.toList.filter fun e => p e.1
  sorted := m.sorted.filter _

/-- The map that the entries of a list lead to, inserted one after another. -/
def ofList (entries : List (κ × α)) : SortedMap κ α :=
  entries.foldl (fun m entry => m.insert entry.1 entry.2) ∅

/-- The greatest key with its value. -/
def last? (m : SortedMap κ α) : Option (κ × α) := m.toList.getLast?

/-- The smallest key with its value. -/
def first? (m : SortedMap κ α) : Option (κ × α) := m.toList.head?

/-- The first entry, in the order of the keys, whose value satisfies `p`. -/
def find? (m : SortedMap κ α) (p : α → Bool) : Option (κ × α) := m.toList.find? (fun e => p e.2)

/-- Change every value and keep the keys. -/
def map {β : Type*} (f : α → β) (m : SortedMap κ α) : SortedMap κ β where
  toList := m.toList.map fun e => (e.1, f e.2)
  sorted := by simpa only [List.pairwise_map] using m.sorted

/-- The sum of a quantity over all entries. -/
def sum [AddCommMonoid M] (f : κ → α → M) (m : SortedMap κ α) : M :=
  (m.toList.map fun p => f p.1 p.2).sum

/-! ## Lookup -/

variable {m : SortedMap κ α} {k k' : κ} {v v' : α}

theorem eq_of_mem {p q : κ × α} (hp : p ∈ m.toList) (hq : q ∈ m.toList) (h : p.1 = q.1) :
    p = q :=
  List.Pairwise.forall_of_forall_of_flip (R := fun p q : κ × α => p.1 = q.1 → p = q)
    (fun _ _ _ => rfl) (m.sorted.imp fun hlt heq => absurd heq hlt.ne)
    (m.sorted.imp fun hlt heq => absurd heq hlt.ne') hp hq h

/-- A sorted list with the entries of the map is the list of the map. -/
theorem toList_eq_of_mem {l : List (κ × α)} (hl : l.Pairwise fun p q => p.1 < q.1)
    (h : ∀ p, p ∈ m.toList ↔ p ∈ l) : m.toList = l := by
  have hnodup : ∀ {l : List (κ × α)}, l.Pairwise (fun p q => p.1 < q.1) → l.Nodup := by
    refine fun hl => List.Pairwise.imp ?_ hl
    rintro p _ hlt rfl
    exact lt_irrefl _ hlt
  refine List.Perm.eq_of_pairwise (fun p q _ _ hpq hqp => ?_) m.sorted hl
    ((List.perm_ext_iff_of_nodup (hnodup m.sorted) (hnodup hl)).mpr h)
  exact absurd hqp (not_lt_of_gt hpq)

/-- The value of a key is the one it is listed with. -/
theorem get?_eq_some : m.get? k = some v ↔ (k, v) ∈ m.toList := by
  simp only [get?, Option.map_eq_some_iff]
  constructor
  · rintro ⟨⟨k', v'⟩, hfind, rfl⟩
    obtain rfl : k' = k := by simpa using List.find?_some hfind
    exact List.mem_of_find?_eq_some hfind
  · intro hmem
    have hsome : (m.toList.find? (fun p => p.1 = k)).isSome := by
      rw [List.find?_isSome]
      exact ⟨(k, v), hmem, by simp⟩
    obtain ⟨p, hp⟩ := Option.isSome_iff_exists.mp hsome
    have hkey : p.1 = k := by simpa using List.find?_some hp
    exact ⟨p, hp, by rw [eq_of_mem (List.mem_of_find?_eq_some hp) hmem hkey]⟩

theorem get?_eq_none : m.get? k = none ↔ ∀ v, (k, v) ∉ m.toList := by
  rw [Option.eq_none_iff_forall_ne_some]
  exact forall_congr' fun v => not_congr get?_eq_some

@[simp] theorem get?_empty : (∅ : SortedMap κ α).get? k = none := rfl

@[simp] theorem toList_empty : (∅ : SortedMap κ α).toList = [] := rfl

theorem mem_insert {p : κ × α} :
    p ∈ (m.insert k v).toList ↔ p = (k, v) ∨ p.1 ≠ k ∧ p ∈ m.toList := by
  simp only [insert, List.mem_append, List.mem_cons, List.mem_filter, decide_eq_true_eq,
    ne_iff_lt_or_gt]
  tauto

theorem mem_erase {p : κ × α} : p ∈ (m.erase k).toList ↔ p.1 ≠ k ∧ p ∈ m.toList := by
  simp [erase, and_comm]

/-- An entry with the greatest key comes last. -/
theorem toList_insert_last (h : ∀ p ∈ m.toList, p.1 < k) :
    (m.insert k v).toList = m.toList ++ [(k, v)] := by
  refine toList_eq_of_mem ?_ fun p => ?_
  · refine List.pairwise_append.mpr ⟨m.sorted, List.pairwise_singleton _ _, fun p hp q hq => ?_⟩
    rw [List.mem_singleton.mp hq]
    exact h p hp
  · rw [mem_insert, List.mem_append, List.mem_singleton, or_comm]
    exact or_congr_left ⟨fun hp => hp.2, fun hp => ⟨(h p hp).ne, hp⟩⟩

/-- The second value of a key replaces the first. -/
theorem insert_insert (m : SortedMap κ α) (k : κ) (v v' : α) :
    (m.insert k v).insert k v' = m.insert k v' := by
  have h : ((m.insert k v).insert k v').toList = (m.insert k v').toList := by
    refine toList_eq_of_mem (m.insert k v').sorted fun p => ?_
    simp only [mem_insert]
    constructor
    · rintro (rfl | ⟨hne, rfl | ⟨-, hp⟩⟩)
      · exact .inl rfl
      · exact absurd rfl hne
      · exact .inr ⟨hne, hp⟩
    · rintro (rfl | ⟨hne, hp⟩)
      · exact .inl rfl
      · exact .inr ⟨hne, .inr ⟨hne, hp⟩⟩
  generalize (m.insert k v).insert k v' = a at h
  generalize m.insert k v' = b at h
  obtain ⟨l, hl⟩ := a
  obtain ⟨l', hl'⟩ := b
  cases h
  rfl

@[simp] theorem get?_insert_self (m : SortedMap κ α) (k : κ) (v : α) :
    (m.insert k v).get? k = some v :=
  get?_eq_some.mpr (mem_insert.mpr (.inl rfl))

theorem get?_insert_of_ne (h : k' ≠ k) : (m.insert k v).get? k' = m.get? k' := by
  ext v'
  rw [get?_eq_some, get?_eq_some, mem_insert]
  simp [h]

theorem get?_insert (m : SortedMap κ α) (k k' : κ) (v : α) :
    (m.insert k v).get? k' = if k' = k then some v else m.get? k' := by
  split
  · rename_i h
    rw [h, get?_insert_self]
  · rename_i h
    exact get?_insert_of_ne h

@[simp] theorem get?_erase_self (m : SortedMap κ α) (k : κ) : (m.erase k).get? k = none :=
  get?_eq_none.mpr fun _ h => (mem_erase.mp h).1 rfl

/-- A new entry on both sides of a map. -/
theorem get?_insert_map {β : Type*} {m' : SortedMap κ β} {f : β → α}
    (h : ∀ k, m.get? k = (m'.get? k).map f) (k : κ) (v : β) (k' : κ) :
    (m.insert k (f v)).get? k' = ((m'.insert k v).get? k').map f := by
  rw [get?_insert, get?_insert, h]
  split <;> rfl

theorem get?_erase_of_ne (h : k' ≠ k) : (m.erase k).get? k' = m.get? k' := by
  ext v'
  rw [get?_eq_some, get?_eq_some, mem_erase]
  simp [h]

theorem get?_erase (m : SortedMap κ α) (k k' : κ) :
    (m.erase k).get? k' = if k' = k then none else m.get? k' := by
  split
  · rename_i h
    rw [h, get?_erase_self]
  · rename_i h
    exact get?_erase_of_ne h

/-- A map is its lookups. -/
theorem eq_of_get? {m' : SortedMap κ α} (h : ∀ k, m.get? k = m'.get? k) : m = m' := by
  have hlist : m.toList = m'.toList := toList_eq_of_mem m'.sorted fun ⟨k, v⟩ => by
    rw [← get?_eq_some, ← get?_eq_some, h]
  obtain ⟨l, hl⟩ := m
  obtain ⟨l', hl'⟩ := m'
  cases hlist
  rfl

theorem erase_eq_self : m.erase k = m ↔ m.get? k = none := by
  refine ⟨fun h => ?_, fun h => eq_of_get? fun k' => ?_⟩
  · rw [← h, get?_erase_self]
  · rw [get?_erase]
    split
    · rw [‹k' = k›, h]
    · rfl

theorem mem_keys : k ∈ m.keys ↔ ∃ v, m.get? k = some v := by
  simp [keys, get?_eq_some]

theorem contains_iff : m.contains k = true ↔ ∃ v, m.get? k = some v := by
  rw [contains, Option.isSome_iff_exists]

@[simp] theorem get?_map {β : Type*} (f : α → β) (m : SortedMap κ α) (k : κ) :
    (m.map f).get? k = (m.get? k).map f := by
  simp only [get?, map, List.find?_map, Option.map_map]
  rfl

/-- What the search finds is an entry that satisfies the condition. -/
theorem get?_filter (m : SortedMap κ α) (p : κ → Bool) (k : κ) :
    (m.filter p).get? k = if p k then m.get? k else none := by
  refine Option.ext fun v => ?_
  rw [get?_eq_some]
  change (k, v) ∈ m.toList.filter _ ↔ _
  rw [List.mem_filter, ← get?_eq_some]
  by_cases h : p k <;> simp [h]

theorem get?_foldl_insert {entries : List (κ × α)} (hkeys : (entries.map Prod.fst).Nodup)
    (m : SortedMap κ α) :
    (entries.foldl (fun m entry => m.insert entry.1 entry.2) m).get? k = some v ↔
      (k, v) ∈ entries ∨ k ∉ entries.map Prod.fst ∧ m.get? k = some v := by
  induction entries generalizing m with
  | nil => simp
  | cons entry entries ih =>
    obtain ⟨k', v'⟩ := entry
    rw [List.map_cons, List.nodup_cons] at hkeys
    rw [List.foldl_cons, ih hkeys.2, get?_insert]
    by_cases hk : k = k'
    · subst hk
      have habsent : (k, v) ∉ entries := fun h => hkeys.1 (List.mem_map.mpr ⟨_, h, rfl⟩)
      simp [habsent, hkeys.1, eq_comm]
    · simp [hk]

/-- A list without repeated keys is the list of the entries of its map. -/
theorem get?_ofList {entries : List (κ × α)} (hkeys : (entries.map Prod.fst).Nodup) :
    (ofList entries).get? k = some v ↔ (k, v) ∈ entries := by
  rw [ofList, get?_foldl_insert hkeys]
  simp

theorem mem_of_mem_ofList {entries : List (κ × α)} {entry : κ × α}
    (h : entry ∈ (ofList entries).toList) : entry ∈ entries := by
  have hfold : ∀ m : SortedMap κ α,
      (entries.foldl (fun m entry => m.insert entry.1 entry.2) m).get? entry.1 = some entry.2 →
      entry ∈ entries ∨ m.get? entry.1 = some entry.2 := by
    clear h
    induction entries with
    | nil => exact fun m hget => .inr hget
    | cons first entries ih =>
      intro m hget
      rcases ih _ hget with hmem | hget
      · exact .inl (List.mem_cons_of_mem _ hmem)
      · rw [get?_insert] at hget
        split at hget
        · exact .inl (List.mem_cons.mpr (.inl (Prod.ext ‹_› (Option.some.inj hget).symm)))
        · exact .inr hget
  rcases hfold ∅ (get?_eq_some.mpr h) with hmem | hget
  · exact hmem
  · cases hget

theorem nodup_keys (m : SortedMap κ α) : (m.toList.map Prod.fst).Nodup :=
  (List.pairwise_map.mpr m.sorted).imp fun h => h.ne

@[simp] theorem ofList_toList (m : SortedMap κ α) : ofList m.toList = m := by
  refine eq_of_get? fun k => Option.ext fun v => ?_
  rw [get?_ofList m.nodup_keys, get?_eq_some]

theorem find?_spec {p : α → Bool} (h : m.find? p = some (k, v)) :
    m.get? k = some v ∧ p v = true :=
  ⟨get?_eq_some.mpr (List.mem_of_find?_eq_some h), by simpa using List.find?_some h⟩

theorem find?_eq_none {p : α → Bool} :
    m.find? p = none ↔ ∀ k v, m.get? k = some v → p v = false := by
  simp only [find?, List.find?_eq_none, Prod.forall, get?_eq_some, Bool.not_eq_true]

theorem contains_eq_false : m.contains k = false ↔ m.get? k = none := by
  simp [contains]

/-! ## The last key -/

theorem last?_eq_none : m.last? = none ↔ ∀ k, m.get? k = none := by
  rw [last?, List.getLast?_eq_none_iff]
  constructor
  · intro h k
    rw [get?_eq_none]
    simp [h]
  · intro h
    rw [List.eq_nil_iff_forall_not_mem]
    rintro ⟨k, v⟩ hmem
    exact get?_eq_none.mp (h k) v hmem

/-- The last key has its value and is at least every other key. -/
theorem last?_spec (h : m.last? = some (k, v)) :
    m.get? k = some v ∧ ∀ k' v', m.get? k' = some v' → k' ≤ k := by
  obtain ⟨init, hinit⟩ := List.getLast?_eq_some_iff.mp h
  refine ⟨get?_eq_some.mpr (by simp [hinit]), fun k' v' hget => ?_⟩
  have hmem := get?_eq_some.mp hget
  have hsorted := m.sorted
  rw [hinit] at hmem hsorted
  rcases List.mem_append.mp hmem with hin | hin
  · exact ((List.pairwise_append.mp hsorted).2.2 _ hin _ (List.mem_singleton.mpr rfl)).le
  · obtain ⟨rfl, -⟩ := Prod.mk.inj (List.mem_singleton.mp hin)
    exact le_rfl

/-- The last key is the one that has a value and is at least every other key. -/
theorem last?_key_eq_some :
    m.last?.map Prod.fst = some k ↔
      (∃ v, m.get? k = some v) ∧ ∀ k' v', m.get? k' = some v' → k' ≤ k := by
  constructor
  · intro h
    obtain ⟨⟨k₀, v⟩, hlast, rfl⟩ := Option.map_eq_some_iff.mp h
    obtain ⟨hget, hle⟩ := last?_spec hlast
    exact ⟨⟨v, hget⟩, hle⟩
  · rintro ⟨⟨v, hget⟩, hle⟩
    cases hlast : m.last? with
    | none => rw [last?_eq_none.mp hlast k] at hget; cases hget
    | some e =>
      obtain ⟨hget', hle'⟩ := last?_spec hlast
      exact congrArg some (le_antisymm (hle _ _ hget') (hle' _ _ hget))

theorem last?_key_eq_none : m.last?.map Prod.fst = none ↔ ∀ k, m.get? k = none := by
  rw [Option.map_eq_none_iff, last?_eq_none]

/-- Two maps with the same keys have the same last key. -/
theorem last?_key_congr {β : Type*} {m' : SortedMap κ β} {f : β → α}
    (h : ∀ k, m.get? k = (m'.get? k).map f) : m.last?.map Prod.fst = m'.last?.map Prod.fst := by
  refine Option.ext fun k => ?_
  rw [last?_key_eq_some, last?_key_eq_some]
  simp only [h, Option.map_eq_some_iff]
  constructor
  · rintro ⟨⟨v, w, hw, rfl⟩, hle⟩
    exact ⟨⟨w, hw⟩, fun k' w' hw' => hle k' (f w') ⟨w', hw', rfl⟩⟩
  · rintro ⟨⟨w, hw⟩, hle⟩
    refine ⟨⟨f w, w, hw, rfl⟩, ?_⟩
    rintro k' - ⟨w', hw', rfl⟩
    exact hle k' w' hw'

/-! ## The first key -/

theorem first?_eq_none : m.first? = none ↔ ∀ k, m.get? k = none := by
  rw [first?, List.head?_eq_none_iff]
  constructor
  · intro h k
    rw [get?_eq_none]
    simp [h]
  · intro h
    rw [List.eq_nil_iff_forall_not_mem]
    rintro ⟨k, v⟩ hmem
    exact get?_eq_none.mp (h k) v hmem

/-- The first key has its value and is at most every other key. -/
theorem first?_spec (h : m.first? = some (k, v)) :
    m.get? k = some v ∧ ∀ k' v', m.get? k' = some v' → k ≤ k' := by
  obtain ⟨rest, hrest⟩ := List.head?_eq_some_iff.mp h
  refine ⟨get?_eq_some.mpr (by simp [hrest]), fun k' v' hget => ?_⟩
  have hmem := get?_eq_some.mp hget
  have hsorted := m.sorted
  rw [hrest] at hmem hsorted
  rcases List.mem_cons.mp hmem with heq | hin
  · exact (congrArg Prod.fst heq).ge
  · exact ((List.pairwise_cons.mp hsorted).1 _ hin).le

theorem first?_eq_some (hget : m.get? k = some v)
    (hle : ∀ k' v', m.get? k' = some v' → k ≤ k') : m.first? = some (k, v) := by
  cases hfirst : m.first? with
  | none =>
    rw [first?_eq_none.mp hfirst k] at hget
    cases hget
  | some first =>
    obtain ⟨hfirst', hle'⟩ := first?_spec hfirst
    obtain rfl : first.1 = k := le_antisymm (hle' _ _ hget) (hle _ _ hfirst')
    rw [hget] at hfirst'
    rw [Option.some.inj hfirst']

/-! ## Sums -/

section Sum

variable [AddCommMonoid M] (f : κ → α → M)

@[simp] theorem sum_empty : (∅ : SortedMap κ α).sum f = 0 := rfl

/-- A list of entries splits into those below, at and above a key. -/
theorem sum_split (l : List (κ × α)) (k : κ) :
    (l.map fun p => f p.1 p.2).sum =
      ((l.filter (fun p => p.1 < k)).map fun p => f p.1 p.2).sum +
        ((l.filter (fun p => p.1 = k)).map fun p => f p.1 p.2).sum +
        ((l.filter (fun p => k < p.1)).map fun p => f p.1 p.2).sum := by
  induction l with
  | nil => simp
  | cons p l ih =>
    rcases lt_trichotomy p.1 k with h | h | h
    · simp only [List.filter_cons, h, h.ne, h.not_gt, decide_true, decide_false, if_true,
        List.map_cons, List.sum_cons, ih, Bool.false_eq_true, if_false]
      ac_rfl
    · simp only [List.filter_cons, h, lt_irrefl, decide_true, decide_false, if_true,
        List.map_cons, List.sum_cons, ih, Bool.false_eq_true, if_false]
      ac_rfl
    · simp only [List.filter_cons, h, h.ne', h.not_gt, decide_true, decide_false, if_true,
        List.map_cons, List.sum_cons, ih, Bool.false_eq_true, if_false]
      ac_rfl

/-- The entries at a key: its value, if it has one. -/
theorem sum_filter_eq (m : SortedMap κ α) (k : κ) :
    ((m.toList.filter (fun p => p.1 = k)).map fun p => f p.1 p.2).sum =
      (m.get? k).elim 0 (f k) := by
  have hnodup : (m.toList.filter (fun p => p.1 = k)).Nodup :=
    (m.sorted.imp fun h heq => absurd (congrArg Prod.fst heq) h.ne).filter _
  cases hget : m.get? k with
  | none =>
    have hnil : m.toList.filter (fun p => p.1 = k) = [] := by
      rw [List.filter_eq_nil_iff]
      rintro ⟨k', v⟩ hmem hk
      obtain rfl : k' = k := by simpa using hk
      exact get?_eq_none.mp hget v hmem
    simp [hnil]
  | some v =>
    have hone : m.toList.filter (fun p => p.1 = k) = [(k, v)] := by
      rw [← List.perm_singleton, List.perm_ext_iff_of_nodup hnodup (by simp)]
      rintro ⟨k', v'⟩
      have hmem := get?_eq_some.mp hget
      simp only [List.mem_filter, decide_eq_true_eq, List.mem_singleton]
      constructor
      · rintro ⟨h, rfl⟩
        exact eq_of_mem h hmem rfl
      · rintro heq
        obtain ⟨rfl, rfl⟩ := Prod.mk.inj heq
        exact ⟨hmem, rfl⟩
    simp [hone]

theorem sum_zero (m : SortedMap κ α) (h : ∀ k v, m.get? k = some v → f k v = 0) :
    m.sum f = 0 :=
  List.sum_eq_zero fun x hx => by
    obtain ⟨p, hp, rfl⟩ := List.mem_map.mp hx
    exact h p.1 p.2 (get?_eq_some.mpr hp)

/-- A sum over a single key. -/
theorem sum_ite_eq (m : SortedMap κ α) (k : κ) [DecidablePred (· = k)] :
    m.sum (fun k' v => if k' = k then f k' v else 0) = (m.get? k).elim 0 (f k) := by
  rw [← sum_filter_eq, sum]
  generalize m.toList = l
  induction l with
  | nil => rfl
  | cons p l ih =>
    rw [List.map_cons, List.sum_cons, ih, List.filter_cons]
    by_cases hk : p.1 = k <;> simp [hk]

/-- An insertion adds the new value's part and takes the old value's part away. -/
theorem sum_insert (m : SortedMap κ α) (k : κ) (v : α) :
    (m.insert k v).sum f + (m.get? k).elim 0 (f k) = m.sum f + f k v := by
  have hsplit := sum_split f m.toList k
  rw [sum_filter_eq] at hsplit
  simp only [sum, hsplit, insert, List.map_append, List.map_cons, List.sum_append, List.sum_cons]
  ac_rfl

theorem sum_erase (m : SortedMap κ α) (k : κ) :
    (m.erase k).sum f + (m.get? k).elim 0 (f k) = m.sum f := by
  have hsplit := sum_split f m.toList k
  have herase := sum_split f (m.erase k).toList k
  rw [sum_filter_eq, get?_erase_self] at herase
  rw [sum_filter_eq] at hsplit
  have hlt : (m.erase k).toList.filter (fun p => p.1 < k) =
      m.toList.filter (fun p => p.1 < k) := by
    rw [erase, List.filter_filter]
    exact List.filter_congr fun p _ => by simpa using fun h : p.1 < k => h.ne
  have hgt : (m.erase k).toList.filter (fun p => k < p.1) =
      m.toList.filter (fun p => k < p.1) := by
    rw [erase, List.filter_filter]
    exact List.filter_congr fun p _ => by simpa using fun h : k < p.1 => h.ne'
  simp only [sum, hsplit, herase, hlt, hgt, Option.elim_none]
  rw [add_zero]
  ac_rfl

theorem length_erase (h : m.get? k = some v) :
    (m.erase k).toList.length + 1 = m.toList.length := by
  have hsum := sum_erase (fun _ _ => 1) m k
  simpa [sum, h] using hsum

end Sum

end SortedMap
