import Mathlib.Algebra.BigOperators.Group.List.Basic
import Mathlib.Data.List.Induction

/-!
# Labelled changes of a state

A system says which changes are legal in a state and what each one does. `Trace s es t` says that
the changes `es`, made one after another, are legal and lead from `s` to `t`; since a change has
one result, a trace can be cut anywhere and the state between its parts is known.

## Main results

* `Trace.invariant`: what every legal change preserves a whole trace preserves.
* `Trace.history_induction`: the same for a property of the state and the changes so far.
* `Trace.at`: the state in which a change of the trace was made, and that it was legal there.
-/

structure Labelled (σ ι : Type*) where
  legal : σ → ι → Prop
  apply : σ → ι → σ

namespace Labelled

variable {σ ι : Type*} (L : Labelled σ ι)

inductive Trace : σ → List ι → σ → Prop
  | nil (s : σ) : Trace s [] s
  | cons {s t : σ} {e : ι} {es : List ι} (legal : L.legal s e)
    (rest : Trace (L.apply s e) es t) : Trace s (e :: es) t

namespace Trace

variable {L}

theorem single {s : σ} {e : ι} (h : L.legal s e) : L.Trace s [e] (L.apply s e) :=
  .cons h (.nil _)

theorem append {s t u : σ} {as bs : List ι} (ha : L.Trace s as t) (hb : L.Trace t bs u) :
    L.Trace s (as ++ bs) u := by
  induction ha with
  | nil => exact hb
  | cons legal _ ih => exact .cons legal (ih hb)

theorem concat {s t : σ} {es : List ι} {e : ι} (h : L.Trace s es t) (legal : L.legal t e) :
    L.Trace s (es ++ [e]) (L.apply t e) :=
  h.append (.single legal)

@[simp] theorem nil_iff {s t : σ} : L.Trace s [] t ↔ t = s :=
  ⟨fun h => by cases h; rfl, fun h => h ▸ .nil _⟩

theorem cons_iff {s t : σ} {e : ι} {es : List ι} :
    L.Trace s (e :: es) t ↔ L.legal s e ∧ L.Trace (L.apply s e) es t :=
  ⟨fun h => by cases h with | cons legal rest => exact ⟨legal, rest⟩, fun h => .cons h.1 h.2⟩

theorem append_iff {s u : σ} {as bs : List ι} :
    L.Trace s (as ++ bs) u ↔ ∃ t, L.Trace s as t ∧ L.Trace t bs u := by
  refine ⟨fun h => ?_, fun ⟨_, ha, hb⟩ => ha.append hb⟩
  induction as generalizing s with
  | nil => exact ⟨s, .nil s, h⟩
  | cons e as ih =>
    obtain ⟨legal, rest⟩ := cons_iff.mp h
    obtain ⟨t, ha, hb⟩ := ih rest
    exact ⟨t, .cons legal ha, hb⟩

/-- The result of a trace is computed from its changes. -/
theorem eq_foldl {s t : σ} {es : List ι} (h : L.Trace s es t) : t = es.foldl L.apply s := by
  induction h with
  | nil => rfl
  | cons _ _ ih => exact ih

theorem unique {s t u : σ} {es : List ι} (ht : L.Trace s es t) (hu : L.Trace s es u) : t = u :=
  ht.eq_foldl.trans hu.eq_foldl.symm

/-- A change of the trace was made in the state that the changes before it lead to. -/
theorem «at» {s u : σ} {as bs : List ι} {e : ι} (h : L.Trace s (as ++ e :: bs) u) :
    ∃ t, L.Trace s as t ∧ L.legal t e ∧ L.Trace (L.apply t e) bs u := by
  obtain ⟨t, ha, hb⟩ := append_iff.mp h
  obtain ⟨legal, hb⟩ := cons_iff.mp hb
  exact ⟨t, ha, legal, hb⟩

/-- A change that is listed was legal in some state on the way. -/
theorem legal_of_mem {s u : σ} {es : List ι} {e : ι} (h : L.Trace s es u) (he : e ∈ es) :
    ∃ as bs t, es = as ++ e :: bs ∧ L.Trace s as t ∧ L.legal t e ∧
      L.Trace (L.apply t e) bs u := by
  obtain ⟨as, bs, rfl⟩ := List.append_of_mem he
  obtain ⟨t, ha, legal, hb⟩ := h.at
  exact ⟨as, bs, t, rfl, ha, legal, hb⟩

/-- What every legal change among `es` preserves the trace preserves. -/
theorem invariant {I : σ → Prop} {s t : σ} {es : List ι} (h : L.Trace s es t) (start : I s)
    (step : ∀ e ∈ es, ∀ s, L.legal s e → I s → I (L.apply s e)) : I t := by
  induction h with
  | nil => exact start
  | cons legal _ ih =>
    exact ih (step _ (List.mem_cons_self ..) _ legal start)
      fun e he => step e (List.mem_cons_of_mem _ he)

/-- Induction along a trace on the state reached and the changes that led to it. -/
theorem history_induction {I : List ι → σ → Prop} {s t : σ} {es : List ι} (h : L.Trace s es t)
    (start : I [] s)
    (step : ∀ as e u, L.Trace s as u → L.legal u e → I as u → I (as ++ [e]) (L.apply u e)) :
    I es t := by
  induction es using List.reverseRecOn generalizing t with
  | nil => rwa [nil_iff.mp h]
  | append_singleton as e ih =>
    obtain ⟨u, ha, legal, he⟩ := h.at
    rw [nil_iff.mp he]
    exact step as e u ha legal (ih ha)

/-- A quantity to which every legal change adds its part. -/
theorem sum_eq {M : Type*} [AddMonoid M] {f : σ → M} {w : ι → M} {s t : σ} {es : List ι}
    (h : L.Trace s es t) (step : ∀ s e, L.legal s e → f (L.apply s e) = f s + w e) :
    f t = f s + (es.map w).sum := by
  induction h with
  | nil => simp
  | @cons s t e es legal _ ih => rw [ih, step s e legal, List.map_cons, List.sum_cons, add_assoc]

end Trace

end Labelled
