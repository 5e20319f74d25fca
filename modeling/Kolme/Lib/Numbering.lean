import Mathlib.Data.List.Basic

/-!
# Numbered logs

A log whose records are numbered from one, without gaps, as they are added. Some of the records
also carry the number of an action; those are numbered from zero.
-/

/-- The numbers of a log, and the next ones to give out. -/
structure Numbered {ρ : Type*} (eventId : ρ → Nat) (actionId? : ρ → Option Nat) (log : List ρ)
    (nextEventId nextActionId : Nat) : Prop where
  eventIds : log.map eventId = List.range' 1 log.length
  nextEventId : nextEventId = log.length + 1
  actionIds : log.filterMap actionId? = List.range nextActionId

namespace Numbered

variable {ρ : Type*} {eventId : ρ → Nat} {actionId? : ρ → Option Nat} {log : List ρ}
  {nextEventId nextActionId : Nat} {record : ρ}

theorem nil : Numbered eventId actionId? [] 1 0 := ⟨rfl, rfl, rfl⟩

/-- A further record without an action. -/
theorem event (h : Numbered eventId actionId? log nextEventId nextActionId)
    (hevent : eventId record = nextEventId) (haction : actionId? record = none) :
    Numbered eventId actionId? (log ++ [record]) (nextEventId + 1) nextActionId where
  eventIds := by
    rw [List.map_append, h.eventIds, List.length_append, List.length_singleton,
      List.range'_concat, List.map_singleton, hevent, h.nextEventId, Nat.one_mul, Nat.add_comm 1]
  nextEventId := by rw [h.nextEventId, List.length_append, List.length_singleton]
  actionIds := by simp [List.filterMap_append, h.actionIds, haction]

/-- A further record with the next action. -/
theorem action (h : Numbered eventId actionId? log nextEventId nextActionId)
    (hevent : eventId record = nextEventId) (haction : actionId? record = some nextActionId) :
    Numbered eventId actionId? (log ++ [record]) (nextEventId + 1) (nextActionId + 1) where
  eventIds := by
    rw [List.map_append, h.eventIds, List.length_append, List.length_singleton,
      List.range'_concat, List.map_singleton, hevent, h.nextEventId, Nat.one_mul, Nat.add_comm 1]
  nextEventId := by rw [h.nextEventId, List.length_append, List.length_singleton]
  actionIds := by simp [List.filterMap_append, h.actionIds, haction, List.range_succ]

theorem lt_next (h : Numbered eventId actionId? log nextEventId nextActionId) :
    ∀ r ∈ log, eventId r < nextEventId := by
  intro r hr
  have hmem := List.mem_map_of_mem (f := eventId) hr
  rw [h.eventIds, List.mem_range'_1] at hmem
  rw [h.nextEventId]
  exact Nat.lt_of_lt_of_eq hmem.2 (Nat.add_comm 1 _)

end Numbered
