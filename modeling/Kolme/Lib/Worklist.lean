import Mathlib.Data.Set.Insert

/-!
# Lists of work in order

An item of work provides something, and needs other things that earlier items provide. Before an
item is dealt with, what it needs can be put in front of it.
-/

namespace Kolme.Worklist

variable {κ τ : Type} (provides : τ → κ) (needs : τ → List κ)

/-- Whatever an item needs is there when its turn comes, from the beginning or from the items before
it, and the goal is there at the end. -/
def Ready (goal : κ) : Set κ → List τ → Prop
  | there, [] => goal ∈ there
  | there, item :: items =>
    (∀ k ∈ needs item, k ∈ there) ∧ Ready goal (insert (provides item) there) items

namespace Ready

variable {provides needs} {goal : κ} {there there' : Set κ} {item item' : τ} {items before : List τ}

theorem mono (h : Ready provides needs goal there items) (hsub : there ⊆ there') :
    Ready provides needs goal there' items := by
  induction items generalizing there there' with
  | nil => exact hsub h
  | cons item items ih =>
    exact ⟨fun k hk => hsub (h.1 k hk), ih h.2 (Set.insert_subset_insert hsub)⟩

/-- What the first item provides is there already. -/
theorem skip (h : Ready provides needs goal there (item :: items)) (hthere : provides item ∈ there) :
    Ready provides needs goal there items := by
  have hrest := h.2
  rwa [Set.insert_eq_of_mem hthere] at hrest

theorem append (hfree : ∀ item ∈ before, needs item = [])
    (h : Ready provides needs goal (there ∪ {k | k ∈ before.map provides}) items) :
    Ready provides needs goal there (before ++ items) := by
  induction before generalizing there with
  | nil => exact h.mono (by simp)
  | cons item before ih =>
    rw [List.forall_mem_cons] at hfree
    refine ⟨by simp [hfree.1], ih hfree.2 (h.mono ?_)⟩
    rintro k (hk | hk)
    · exact .inl (.inr hk)
    · rcases List.mem_cons.mp hk with rfl | hk
      · exact .inl (.inl rfl)
      · exact .inr hk

/-- Put items that provide what an item needs in front of it. -/
theorem expand (h : Ready provides needs goal there (item :: items))
    (hprovides : provides item' = provides item) (hfree : ∀ item ∈ before, needs item = [])
    (hneeds : ∀ k ∈ needs item', k ∈ there ∨ k ∈ before.map provides) :
    Ready provides needs goal there (before ++ item' :: items) := by
  refine append hfree ⟨hneeds, ?_⟩
  rw [hprovides]
  exact h.2.mono (Set.insert_subset_insert Set.subset_union_left)

end Ready

end Kolme.Worklist
