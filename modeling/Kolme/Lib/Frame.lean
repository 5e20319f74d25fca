import Kolme.Lib.Exec

/-!
# What a program does not look at

A program ignores a change of its state if it does the same with and without the change, and leaves
it in place. A program of several statements does so when each of its statements does, and what it
reads may be used only where the change makes no difference.

## Main results

* `Exec.Ignores.bind`, `Exec.Ignores.get_bind`: the rules for statements in a row.
* `Exec.Ignores.fixes`: what the change fixes beforehand, it fixes afterwards.
-/

namespace Exec

variable {ε σ α β : Type} {f : σ → σ}

/-- When `f` changes the state beforehand, the program does the same and `f` can come after it. -/
def Ignores (f : σ → σ) (x : Exec ε σ α) : Prop := ∀ s, x (f s) = ((x s).1, f (x s).2)

theorem ignores_pure (a : α) : Ignores f (pure a : Exec ε σ α) := fun _ => rfl

theorem ignores_lift (x : Except ε α) : Ignores f (lift x : Exec ε σ α) := fun _ => rfl

theorem ignores_throw (e : ε) : Ignores f (throw e : Exec ε σ α) := fun _ => rfl

theorem ignores_modify {g : σ → σ} (h : ∀ s, g (f s) = f (g s)) :
    Ignores f (modify g : Exec ε σ Unit) := fun s => congrArg (Prod.mk (Except.ok ())) (h s)

theorem Ignores.bind {x : Exec ε σ α} {k : α → Exec ε σ β} (hx : Ignores f x)
    (hk : ∀ a, Ignores f (k a)) : Ignores f (x >>= k) := by
  intro s
  have hx' := hx s
  cases hrun : x s with
  | mk r t =>
    rw [hrun] at hx'
    cases r with
    | ok a => rw [bind_of_ok hx', bind_of_ok hrun, hk a t]
    | error e => rw [bind_of_error hx', bind_of_error hrun]

/-- What is read may be used only where `f` makes no difference. -/
theorem Ignores.get_bind {k : σ → Exec ε σ β} (hk : ∀ s, Ignores f (k s))
    (same : ∀ s, k (f s) = k s) : Ignores f (Exec.get >>= k) := by
  intro s
  rw [Exec.get_bind, Exec.get_bind, same]
  exact hk s s

theorem ignores_forEach {g : α → Exec ε σ Unit} (h : ∀ a, Ignores f (g a)) (as : List α) :
    Ignores f (forEach g as) := by
  induction as with
  | nil => exact ignores_pure ()
  | cons a as ih => exact (h a).bind fun _ => ih

/-- A state that `f` leaves alone is left alone afterwards too. -/
theorem Ignores.fixes {x : Exec ε σ α} (hx : Ignores f x) {s : σ} (h : f s = s) :
    f (x s).2 = (x s).2 := by
  have hx' := hx s
  rw [h] at hx'
  exact (congrArg Prod.snd hx').symm

end Exec
