import Kolme.Lib.SortedMap

/-!
# Queues with numbered elements

A map from numbers is a queue when its keys are an interval: elements enter under the next number
and leave in the order of the numbers, so no number is skipped or used twice.
-/

namespace SortedMap

variable {α : Type*}

/-- The keys are the numbers from `lo` on and below `hi`. -/
structure Contiguous (m : SortedMap Nat α) (lo hi : Nat) : Prop where
  le : lo ≤ hi
  contains_iff : ∀ k, m.contains k = true ↔ lo ≤ k ∧ k < hi

namespace Contiguous

variable {m : SortedMap Nat α} {lo hi k : Nat} {v : α}

theorem empty (n : Nat) : (∅ : SortedMap Nat α).Contiguous n n :=
  ⟨le_rfl, fun k => ⟨fun h => by simp [contains] at h, fun h => by omega⟩⟩

theorem of_get? (h : m.Contiguous lo hi) (hget : m.get? k = some v) : lo ≤ k ∧ k < hi :=
  (h.contains_iff k).mp (SortedMap.contains_iff.mpr ⟨v, hget⟩)

theorem get?_next (h : m.Contiguous lo hi) : m.get? hi = none := by
  cases hget : m.get? hi with
  | none => rfl
  | some v => exact absurd (h.of_get? hget).2 (lt_irrefl _)

/-- An element enters under the next number. -/
theorem push (h : m.Contiguous lo hi) (v : α) : (m.insert hi v).Contiguous lo (hi + 1) := by
  refine ⟨h.le.trans (Nat.le_succ _), fun k => ?_⟩
  have hk := h.contains_iff k
  have hle := h.le
  rw [contains] at hk ⊢
  rw [get?_insert]
  split
  · simp only [Option.isSome_some, true_iff]
    omega
  · rw [hk]
    omega

/-- An element is changed in its place. -/
theorem update (h : m.Contiguous lo hi) (hk : m.contains k = true) (v : α) :
    (m.insert k v).Contiguous lo hi := by
  refine ⟨h.le, fun k' => ?_⟩
  rw [← h.contains_iff, contains, get?_insert]
  split
  · rename_i heq
    simpa [heq] using hk
  · rfl

/-- The first element has the lowest number. -/
theorem first (h : m.Contiguous lo hi) (hfirst : m.first? = some (k, v)) : k = lo ∧ lo < hi := by
  obtain ⟨hget, hle⟩ := first?_spec hfirst
  obtain ⟨hlo, hhi⟩ := h.of_get? hget
  obtain ⟨v', hv'⟩ := SortedMap.contains_iff.mp ((h.contains_iff lo).mpr ⟨le_rfl, by omega⟩)
  have := hle lo v' hv'
  omega

theorem first_of_lt (h : m.Contiguous lo hi) (hlt : lo < hi) :
    ∃ v, m.first? = some (lo, v) := by
  obtain ⟨v, hv⟩ := SortedMap.contains_iff.mp ((h.contains_iff lo).mpr ⟨le_rfl, hlt⟩)
  exact ⟨v, first?_eq_some hv fun k' v' hget => (h.of_get? hget).1⟩

/-- The first element leaves. -/
theorem pop (h : m.Contiguous lo hi) (hfirst : m.first? = some (k, v)) :
    (m.erase k).Contiguous (lo + 1) hi := by
  obtain ⟨rfl, hlt⟩ := h.first hfirst
  refine ⟨hlt, fun k' => ?_⟩
  have hk := h.contains_iff k'
  rw [contains] at hk ⊢
  rw [get?_erase]
  split
  · simp only [Option.isSome_none, Bool.false_eq_true, false_iff]
    omega
  · rw [hk]
    omega

end Contiguous

end SortedMap
