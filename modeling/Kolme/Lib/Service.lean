import Mathlib.Data.List.Basic

/-!
# Services

A service answers every call and changes its state with it. One service refines another when a
relation between their states is kept by every call and related states give the same answers, as
far as a view of the answers shows; calls may have to meet a condition on the specification's
state.

## Main results

* `Service.Refines.answers`: a list of calls gets the answers of the specification.
* `Service.Refines.run`: afterwards the states are related.
-/

structure Service (σ ι ο : Type*) where
  call : σ → ι → ο × σ

namespace Service

variable {σ τ ι ο ο' : Type*}

/-- The state after a list of calls. -/
def run (S : Service σ ι ο) (s : σ) (is : List ι) : σ :=
  is.foldl (fun s i => (S.call s i).2) s

def answers (S : Service σ ι ο) : σ → List ι → List ο
  | _, [] => []
  | s, i :: is => (S.call s i).1 :: S.answers (S.call s i).2 is

/-- `P` holds at every call of a list, in the state in which it is made. -/
def Along (S : Service σ ι ο) (P : σ → ι → Prop) : σ → List ι → Prop
  | _, [] => True
  | s, i :: is => P s i ∧ S.Along P (S.call s i).2 is

structure Refines (S : Service σ ι ο) (T : Service τ ι ο') (view : ο → ο') (P : τ → ι → Prop)
    (R : σ → τ → Prop) : Prop where
  call : ∀ {s t i}, R s t → P t i →
    view (S.call s i).1 = (T.call t i).1 ∧ R (S.call s i).2 (T.call t i).2

variable {S : Service σ ι ο} {T : Service τ ι ο'}

@[simp] theorem run_nil (s : σ) : S.run s [] = s := rfl

@[simp] theorem run_cons (s : σ) (i : ι) (is : List ι) :
    S.run s (i :: is) = S.run (S.call s i).2 is := rfl

theorem run_append (s : σ) (is js : List ι) : S.run s (is ++ js) = S.run (S.run s is) js :=
  List.foldl_append

theorem along_append {P : σ → ι → Prop} {s : σ} {is js : List ι} :
    S.Along P s (is ++ js) ↔ S.Along P s is ∧ S.Along P (S.run s is) js := by
  induction is generalizing s with
  | nil => simp [Along]
  | cons i is ih => simp [Along, ih, and_assoc]

/-- What every call keeps holds after all calls. -/
theorem run_invariant {I : σ → Prop} (keep : ∀ s i, I s → I (S.call s i).2) {s : σ}
    (start : I s) (is : List ι) : I (S.run s is) := by
  induction is generalizing s with
  | nil => exact start
  | cons i is ih => exact ih (keep s i start)

namespace Refines

variable {view : ο → ο'} {P : τ → ι → Prop} {R : σ → τ → Prop}

theorem run (h : S.Refines T view P R) {s : σ} {t : τ} (hrel : R s t) {is : List ι}
    (fit : T.Along P t is) : R (S.run s is) (T.run t is) := by
  induction is generalizing s t with
  | nil => exact hrel
  | cons i is ih => exact ih (h.call hrel fit.1).2 fit.2

theorem answers (h : S.Refines T view P R) {s : σ} {t : τ} (hrel : R s t) {is : List ι}
    (fit : T.Along P t is) : (S.answers s is).map view = T.answers t is := by
  induction is generalizing s t with
  | nil => rfl
  | cons i is ih =>
    obtain ⟨hanswer, hnext⟩ := h.call hrel fit.1
    exact congrArg₂ List.cons hanswer (ih hnext fit.2)

end Refines

end Service
