import Mathlib.Data.List.Nodup
import Mathlib.Data.List.Basic

/-!
# Caches that forget what was used least recently

The entries of a cache are listed from the most to the least recently used. A cache that is full
forgets the last entry when a new key is put in.
-/

structure LruCache (κ α : Type*) where
  cap : Nat
  /-- The entries, the most recently used first -/
  entries : List (κ × α)
  cap_pos : 0 < cap
  length_le : entries.length ≤ cap
  nodup : (entries.map Prod.fst).Nodup

namespace LruCache

variable {κ α : Type*} [DecidableEq κ]

def empty (cap : Nat) (cap_pos : 0 < cap) : LruCache κ α :=
  ⟨cap, [], cap_pos, Nat.zero_le _, .nil⟩

/-- Whether a key is present; this does not count as a use. -/
def contains (self : LruCache κ α) (k : κ) : Bool := self.entries.any fun p => p.1 = k

/-- The value of a key, without using it. -/
def peek (self : LruCache κ α) (k : κ) : Option α :=
  (self.entries.find? fun p => p.1 = k).map Prod.snd

def pop (self : LruCache κ α) (k : κ) : LruCache κ α where
  cap := self.cap
  entries := self.entries.filter fun p => p.1 ≠ k
  cap_pos := self.cap_pos
  length_le := Nat.le_trans (List.length_filter_le _ _) self.length_le
  nodup := self.nodup.sublist (List.filter_sublist.map _)

/-- Set the value of a key, which becomes the most recently used. -/
def put (self : LruCache κ α) (k : κ) (v : α) : LruCache κ α where
  cap := self.cap
  entries := ((k, v) :: self.entries.filter fun p => p.1 ≠ k).take self.cap
  cap_pos := self.cap_pos
  length_le := List.length_take_le _ _
  nodup := by
    refine List.Nodup.sublist ((List.take_sublist _ _).map _) ?_
    rw [List.map_cons, List.nodup_cons]
    refine ⟨fun hmem => ?_, (self.pop k).nodup⟩
    obtain ⟨p, hp, hk⟩ := List.mem_map.mp hmem
    exact absurd hk (of_decide_eq_true (List.mem_filter.mp hp).2)

/-- Use a key, if it is present. -/
def promote (self : LruCache κ α) (k : κ) : LruCache κ α :=
  match self.peek k with
  | none => self
  | some v => self.put k v

/-- The entry that was used least recently; this does not count as a use. -/
def peekLru (self : LruCache κ α) : Option (κ × α) := self.entries.getLast?

/-- Change the value of a key, if it is present, which counts as a use. -/
def getMut (self : LruCache κ α) (k : κ) (change : α → α) : LruCache κ α :=
  match self.peek k with
  | none => self
  | some v => self.put k (change v)

/-- The keys, the most recently used first. -/
def keys (self : LruCache κ α) : List κ := self.entries.map Prod.fst

theorem getMut_id (self : LruCache κ α) (k : κ) : self.getMut k id = self.promote k := rfl

theorem contains_put (self : LruCache κ α) (k : κ) (v : α) : (self.put k v).contains k = true := by
  obtain ⟨n, hn⟩ := Nat.exists_eq_succ_of_ne_zero (Nat.pos_iff_ne_zero.mp self.cap_pos)
  simp [contains, put, hn]

/-- A value that is found after a new one was put in is the new one or was there before. -/
theorem peek_put {self : LruCache κ α} {k k' : κ} {v w : α}
    (h : (self.put k v).peek k' = some w) : k' = k ∧ w = v ∨ self.peek k' = some w := by
  obtain ⟨p, hfind, rfl⟩ := Option.map_eq_some_iff.mp h
  have hwhole : ((k, v) :: self.entries.filter fun p => p.1 ≠ k).find? (fun p => p.1 = k') =
      some p := (List.take_prefix ..).find?_eq_some hfind
  rw [List.find?_cons] at hwhole
  split at hwhole
  · obtain rfl := Option.some.inj hwhole
    exact .inl ⟨Eq.symm (of_decide_eq_true ‹_›), rfl⟩
  · have hne : k ≠ k' := of_decide_eq_false ‹_›
    have hkey : (fun p : κ × α => decide (decide (p.1 ≠ k) = true ∧ decide (p.1 = k') = true)) =
        fun p => decide (p.1 = k') := by
      funext p
      by_cases hp : p.1 = k'
      · simp [hp, hne.symm]
      · simp [hp]
    rw [List.find?_filter, hkey] at hwhole
    rw [peek, hwhole]
    exact .inr rfl

/-! ## Keys -/

section Keys

variable {self : LruCache κ α} {k k' : κ} {v : α}

theorem contains_iff : self.contains k = true ↔ k ∈ self.keys := by
  simp [contains, keys]

theorem peek_eq_some : self.peek k = some v ↔ (k, v) ∈ self.entries := by
  constructor
  · intro h
    obtain ⟨p, hfind, rfl⟩ := Option.map_eq_some_iff.mp h
    have hkey : p.1 = k := by simpa using List.find?_some hfind
    subst hkey
    exact List.mem_of_find?_eq_some hfind
  · intro h
    have hmem := self.nodup
    rw [peek, Option.map_eq_some_iff]
    cases hfind : self.entries.find? fun p => p.1 = k with
    | none => exact absurd (List.find?_eq_none.mp hfind _ h) (by simp)
    | some p =>
      have hkey : p.1 = k := by simpa using List.find?_some hfind
      have hp := List.mem_of_find?_eq_some hfind
      exact ⟨p, rfl, congrArg Prod.snd (List.inj_on_of_nodup_map hmem hp h hkey)⟩

theorem peek_eq_none : self.peek k = none ↔ k ∉ self.keys := by
  simp only [peek, Option.map_eq_none_iff, List.find?_eq_none, decide_eq_true_eq, keys,
    List.mem_map, not_exists, not_and]

theorem entries_pop : (self.pop k).entries = self.entries.filter (·.1 ≠ k) := rfl

theorem entries_put :
    (self.put k v).entries = ((k, v) :: self.entries.filter (·.1 ≠ k)).take self.cap := rfl

theorem keys_pop : (self.pop k).keys = self.keys.filter (· ≠ k) := by
  rw [keys, keys, entries_pop, List.filter_map]
  rfl

theorem keys_put : (self.put k v).keys = (k :: self.keys.filter (· ≠ k)).take self.cap := by
  rw [keys, keys, entries_put, List.map_take, List.map_cons, List.filter_map]
  rfl

theorem mem_entries_of_put {p : κ × α} (h : p ∈ (self.put k v).entries) :
    p = (k, v) ∨ p ∈ self.entries ∧ p.1 ≠ k := by
  simpa using List.mem_of_mem_take h

theorem mem_keys_of_put (h : k' ∈ (self.put k v).keys) : k' = k ∨ k' ∈ self.keys := by
  obtain ⟨p, hp, rfl⟩ := List.mem_map.mp h
  rcases mem_entries_of_put hp with rfl | ⟨hp, -⟩
  · exact .inl rfl
  · exact .inr (List.mem_map_of_mem hp)

theorem mem_keys_of_getMut {change : α → α} (h : k' ∈ (self.getMut k change).keys) :
    k' ∈ self.keys := by
  unfold getMut at h
  cases hpeek : self.peek k with
  | none => rwa [hpeek] at h
  | some v =>
    rw [hpeek] at h
    rcases mem_keys_of_put h with rfl | hmem
    · exact List.mem_map_of_mem (f := Prod.fst) (peek_eq_some.mp hpeek)
    · exact hmem

/-- A key that is put in where there is room displaces no other key. -/
theorem mem_entries_put (h : (self.keys.filter (· ≠ k)).length < self.cap) {p : κ × α} :
    p ∈ (self.put k v).entries ↔ p = (k, v) ∨ p ∈ self.entries ∧ p.1 ≠ k := by
  have hall : ((k, v) :: self.entries.filter (·.1 ≠ k)).length ≤ self.cap := by
    rw [keys, List.filter_map, List.length_map] at h
    exact h
  rw [entries_put, List.take_of_length_le hall]
  simp

theorem peek_put_of_room (h : (self.keys.filter (· ≠ k)).length < self.cap) :
    (self.put k v).peek k' = if k' = k then some v else self.peek k' := by
  ext w
  rw [peek_eq_some, mem_entries_put h]
  split
  · rename_i heq
    subst heq
    simp [eq_comm]
  · rename_i hne
    simp [hne, peek_eq_some]

theorem cap_getMut {change : α → α} : (self.getMut k change).cap = self.cap := by
  unfold getMut
  split <;> rfl

/-- Where a key is present there is room for it. -/
theorem room_of_mem (h : k ∈ self.keys) : (self.keys.filter (· ≠ k)).length < self.cap := by
  have hlt : (self.keys.filter (· ≠ k)).length < self.keys.length := by
    rw [List.length_filter_lt_length_iff_exists]
    exact ⟨k, h, by simp⟩
  refine Nat.lt_of_lt_of_le hlt ?_
  rw [keys, List.length_map]
  exact self.length_le

theorem peek_getMut {change : α → α} : (self.getMut k change).peek k' =
    if k' = k then (self.peek k).map change else self.peek k' := by
  cases hpeek : self.peek k with
  | none =>
    simp only [getMut, hpeek, Option.map_none]
    by_cases heq : k' = k
    · rw [if_pos heq, heq]
      exact hpeek
    · rw [if_neg heq]
  | some v =>
    have hmem : k ∈ self.keys := List.mem_map_of_mem (f := Prod.fst) (peek_eq_some.mp hpeek)
    simp only [getMut, hpeek, Option.map_some]
    exact peek_put_of_room (room_of_mem hmem)

end Keys

/-! ## Values -/

section Values

variable {β : Type*} (f : α → β) (self : LruCache κ α) (k : κ)

/-- The same cache with other values. -/
def mapValues : LruCache κ β where
  cap := self.cap
  entries := self.entries.map fun p => (p.1, f p.2)
  cap_pos := self.cap_pos
  length_le := by
    rw [List.length_map]
    exact self.length_le
  nodup := by
    rw [List.map_map]
    exact self.nodup

omit [DecidableEq κ] in
theorem ext_entries {a b : LruCache κ α} (hcap : a.cap = b.cap) (h : a.entries = b.entries) :
    a = b := by
  cases a
  cases b
  cases hcap
  cases h
  rfl

@[simp] theorem contains_mapValues : (self.mapValues f).contains k = self.contains k := by
  simp [contains, mapValues, Function.comp_def]

@[simp] theorem peek_mapValues : (self.mapValues f).peek k = (self.peek k).map f := by
  simp [peek, mapValues, List.find?_map, Function.comp_def]

@[simp] theorem mapValues_pop : (self.pop k).mapValues f = (self.mapValues f).pop k := by
  refine ext_entries rfl ?_
  simp [mapValues, pop, List.filter_map, Function.comp_def]

@[simp] theorem mapValues_put (v : α) :
    (self.put k v).mapValues f = (self.mapValues f).put k (f v) := by
  refine ext_entries rfl ?_
  simp [mapValues, put, List.filter_map, Function.comp_def]

theorem mapValues_getMut (change : α → α) (change' : β → β)
    (h : ∀ a, f (change a) = change' (f a)) :
    (self.getMut k change).mapValues f = (self.mapValues f).getMut k change' := by
  unfold getMut
  rw [peek_mapValues]
  cases self.peek k with
  | none => rfl
  | some v =>
    rw [Option.map_some, mapValues_put, h]

end Values

end LruCache
