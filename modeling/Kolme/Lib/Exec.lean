import Kolme.Lib.Result

/-!
# Programs over a mutable state that can fail

A program reads and writes a state and may stop at its first error. An error does not undo what
the program wrote before it: only the caller can do that, by dropping the state. A success is taken
apart statement by statement with `bind_eq_ok` and the lemmas of the primitive programs.
-/

/-- A program over the state `σ` with errors `ε` and results `α`. -/
def Exec (ε σ α : Type) : Type := σ → Except ε α × σ

namespace Exec

variable {ε σ τ α β : Type}

instance : Monad (Exec ε σ) where
  pure a := fun s => (.ok a, s)
  bind x f := fun s =>
    match x s with
    | (.ok a, s') => f a s'
    | (.error e, s') => (.error e, s')

def get : Exec ε σ σ := fun s => (.ok s, s)

def gets (f : σ → α) : Exec ε σ α := fun s => (.ok (f s), s)

def modify (f : σ → σ) : Exec ε σ Unit := fun s => (.ok (), f s)

def throw (e : ε) : Exec ε σ α := fun s => (.error e, s)

/-- A computation that does not touch the state. -/
def lift (x : Except ε α) : Exec ε σ α := fun s => (x, s)

/-- Stop with `e` unless `c` holds. -/
def ensure (c : Prop) [Decidable c] (e : ε) : Exec ε σ Unit := lift (Except.ensure c e)

/-- The value of an option, or the error `e` when there is none. -/
def fromOption (e : ε) (o : Option α) : Exec ε σ α := lift (Except.fromOption e o)

/-- A program over one part of the state. -/
def zoom (part : σ → τ) (put : σ → τ → σ) (x : Exec ε τ α) : Exec ε σ α := fun s =>
  let (r, t) := x (part s)
  (r, put s t)

/-- A program for each element of a list, one after another. -/
def forEach (f : α → Exec ε σ Unit) : List α → Exec ε σ Unit
  | [] => pure ()
  | a :: as => do
    f a
    forEach f as

/-- The state in which a program ends. -/
def finish (x : Exec ε σ Unit) (s : σ) : Except ε σ :=
  match x s with
  | (.ok (), s') => .ok s'
  | (.error e, _) => .error e

theorem get_bind (f : σ → Exec ε σ α) (s : σ) : (get >>= f) s = f s s := rfl

/-! ## Successful runs -/

variable {s s' : σ} {a : α} {b : β}

theorem finish_eq_ok {x : Exec ε σ Unit} : x.finish s = .ok s' ↔ x s = (.ok (), s') := by
  rw [finish]
  split
  · rename_i hx
    rw [hx, Except.ok.injEq, Prod.mk.injEq, eq_self, true_and]
  · rename_i hx
    simp [hx]

theorem bind_eq_ok {x : Exec ε σ α} {f : α → Exec ε σ β} :
    (x >>= f) s = (.ok b, s') ↔ ∃ a t, x s = (.ok a, t) ∧ f a t = (.ok b, s') := by
  change (match x s with
    | (.ok a, s') => f a s'
    | (.error e, s') => (.error e, s')) = _ ↔ _
  rcases x s with ⟨_ | a, t⟩ <;> simp

@[simp] theorem pure_eq_ok {a' : α} :
    (pure a : Exec ε σ α) s = (.ok a', s') ↔ a = a' ∧ s = s' := by
  change ((.ok a, s) : Except ε α × σ) = _ ↔ _
  simp

@[simp] theorem get_eq_ok {t : σ} : (get : Exec ε σ σ) s = (.ok t, s') ↔ s = t ∧ s = s' := by
  simp [get]

@[simp] theorem gets_eq_ok {f : σ → α} :
    (gets f : Exec ε σ α) s = (.ok a, s') ↔ f s = a ∧ s = s' := by
  simp [gets]

@[simp] theorem modify_eq_ok {f : σ → σ} {u : Unit} :
    (modify f : Exec ε σ Unit) s = (.ok u, s') ↔ f s = s' := by
  simp [modify]

@[simp] theorem throw_ne_ok {e : ε} : (throw e : Exec ε σ α) s ≠ (.ok a, s') := by
  simp [throw]

@[simp] theorem lift_eq_ok {x : Except ε α} :
    (lift x : Exec ε σ α) s = (.ok a, s') ↔ x = .ok a ∧ s = s' := by
  simp [lift]

@[simp] theorem ensure_eq_ok {c : Prop} [Decidable c] {e : ε} {u : Unit} :
    (ensure c e : Exec ε σ Unit) s = (.ok u, s') ↔ c ∧ s = s' := by
  simp [ensure]

@[simp] theorem fromOption_eq_ok {e : ε} {o : Option α} :
    (fromOption e o : Exec ε σ α) s = (.ok a, s') ↔ o = some a ∧ s = s' := by
  simp [fromOption]

theorem zoom_eq_ok {part : σ → τ} {put : σ → τ → σ} {x : Exec ε τ α} :
    (zoom part put x) s = (.ok a, s') ↔ ∃ t, x (part s) = (.ok a, t) ∧ put s t = s' := by
  unfold zoom
  rcases x (part s) with ⟨r, t⟩
  simp only [Prod.mk.injEq]
  constructor
  · rintro ⟨rfl, rfl⟩
    exact ⟨t, ⟨rfl, rfl⟩, rfl⟩
  · rintro ⟨t', ⟨rfl, rfl⟩, rfl⟩
    exact ⟨rfl, rfl⟩

@[simp] theorem forEach_nil (f : α → Exec ε σ Unit) : forEach f [] = pure () := rfl

theorem forEach_cons_eq_ok {f : α → Exec ε σ Unit} {as : List α} {u : Unit} :
    forEach f (a :: as) s = (.ok u, s') ↔
      ∃ t, f a s = (.ok (), t) ∧ forEach f as t = (.ok u, s') := by
  rw [forEach, bind_eq_ok]
  exact ⟨fun ⟨(), t, h⟩ => ⟨t, h⟩, fun ⟨t, h⟩ => ⟨(), t, h⟩⟩

/-- A relation that every element's program respects is respected by the whole loop, if it is
reflexive and transitive. -/
theorem forEach_induction {R : σ → σ → Prop} {f : α → Exec ε σ Unit} {as : List α}
    (refl : ∀ s, R s s) (trans : ∀ {s t u}, R s t → R t u → R s u)
    (step : ∀ a ∈ as, ∀ s s', f a s = (.ok (), s') → R s s') {u : Unit}
    (h : forEach f as s = (.ok u, s')) : R s s' := by
  induction as generalizing s with
  | nil =>
    obtain ⟨-, rfl⟩ := pure_eq_ok.mp h
    exact refl s
  | cons a as ih =>
    obtain ⟨t, ha, has⟩ := forEach_cons_eq_ok.mp h
    exact trans (step a (List.mem_cons_self ..) s t ha)
      (ih (fun b hb => step b (List.mem_cons_of_mem _ hb)) has)

/-! ## Failing runs -/

theorem bind_eq_error {x : Exec ε σ α} {f : α → Exec ε σ β} {e : ε} :
    (x >>= f) s = (.error e, s') ↔
      x s = (.error e, s') ∨ ∃ a t, x s = (.ok a, t) ∧ f a t = (.error e, s') := by
  change (match x s with
    | (.ok a, s') => f a s'
    | (.error e, s') => (.error e, s')) = _ ↔ _
  rcases x s with ⟨_ | a, t⟩ <;> simp

@[simp] theorem pure_ne_error {e : ε} : (pure a : Exec ε σ α) s ≠ (.error e, s') := by
  change ((.ok a, s) : Except ε α × σ) ≠ _
  simp

@[simp] theorem get_ne_error {e : ε} : (get : Exec ε σ σ) s ≠ (.error e, s') := by
  simp [get]

@[simp] theorem gets_ne_error {f : σ → α} {e : ε} :
    (gets f : Exec ε σ α) s ≠ (.error e, s') := by
  simp [gets]

@[simp] theorem modify_ne_error {f : σ → σ} {e : ε} :
    (modify f : Exec ε σ Unit) s ≠ (.error e, s') := by
  simp [modify]

@[simp] theorem throw_eq_error {e e' : ε} :
    (throw e : Exec ε σ α) s = (.error e', s') ↔ e = e' ∧ s = s' := by
  simp [throw]

@[simp] theorem lift_eq_error {x : Except ε α} {e : ε} :
    (lift x : Exec ε σ α) s = (.error e, s') ↔ x = .error e ∧ s = s' := by
  simp [lift]

@[simp] theorem ensure_eq_error {c : Prop} [Decidable c] {e e' : ε} :
    (ensure c e : Exec ε σ Unit) s = (.error e', s') ↔ (¬c ∧ e = e') ∧ s = s' := by
  by_cases h : c <;> simp [ensure, Except.ensure, h]

@[simp] theorem fromOption_eq_error {e e' : ε} {o : Option α} :
    (fromOption e o : Exec ε σ α) s = (.error e', s') ↔ (o = none ∧ e = e') ∧ s = s' := by
  cases o <;> simp [fromOption, Except.fromOption]

/-! ## Computing a run -/

theorem bind_of_ok {x : Exec ε σ α} {f : α → Exec ε σ β} (h : x s = (.ok a, s')) :
    (x >>= f) s = f a s' := by
  change (match x s with
    | (.ok a, s') => f a s'
    | (.error e, s') => (.error e, s')) = _
  rw [h]

theorem bind_of_error {x : Exec ε σ α} {f : α → Exec ε σ β} {e : ε} (h : x s = (.error e, s')) :
    (x >>= f) s = (.error e, s') := by
  change (match x s with
    | (.ok a, s') => f a s'
    | (.error e, s') => (.error e, s')) = _
  rw [h]

/-- What follows does not see where its state comes from. -/
theorem bind_of_eq {t : σ} {x y : Exec ε σ α} {f : α → Exec ε σ β} (h : x s = y t) :
    (x >>= f) s = (y >>= f) t := by
  change (match x s with
    | (.ok a, s') => f a s'
    | (.error e, s') => (.error e, s')) = _
  rw [h]
  rfl

theorem bind_bind {γ : Type} {x : Exec ε σ α} {f : α → Exec ε σ β} {g : β → Exec ε σ γ} :
    (x >>= f >>= g) s = (x >>= fun a => f a >>= g) s := by
  cases hrun : x s with
  | mk r s' =>
    cases r with
    | ok a =>
      rw [bind_of_ok hrun]
      exact bind_of_eq (bind_of_ok hrun)
    | error e => rw [bind_of_error hrun, bind_of_error (bind_of_error hrun)]

theorem ensure_bind {c : Prop} [Decidable c] {e : ε} {f : Unit → Exec ε σ β} (h : c) :
    (ensure c e >>= f) s = f () s :=
  bind_of_ok (ensure_eq_ok.mpr ⟨h, rfl⟩)

theorem fromOption_bind {e : ε} {o : Option α} {f : α → Exec ε σ β} (h : o = some a) :
    (fromOption e o >>= f) s = f a s :=
  bind_of_ok (fromOption_eq_ok.mpr ⟨h, rfl⟩)

theorem lift_bind {x : Except ε α} {f : α → Exec ε σ β} (h : x = .ok a) :
    (lift x >>= f) s = f a s :=
  bind_of_ok (lift_eq_ok.mpr ⟨h, rfl⟩)

theorem forEach_append_of_ok {f : α → Exec ε σ Unit} {as : List α} (bs : List α)
    (h : forEach f as s = (.ok (), s')) : forEach f (as ++ bs) s = forEach f bs s' := by
  induction as generalizing s with
  | nil =>
    obtain ⟨-, rfl⟩ := pure_eq_ok.mp h
    rfl
  | cons a as ih =>
    obtain ⟨t, ha, has⟩ := forEach_cons_eq_ok.mp h
    rw [List.cons_append, forEach, bind_of_ok ha]
    exact ih has

/-- A loop whose programs leave the state alone. -/
theorem forEach_of_skip {f : α → Exec ε σ Unit} {as : List α}
    (h : ∀ a ∈ as, f a s = (.ok (), s)) : forEach f as s = (.ok (), s) := by
  induction as with
  | nil => rfl
  | cons a as ih =>
    rw [forEach, bind_of_ok (h a (List.mem_cons_self ..))]
    exact ih fun b hb => h b (List.mem_cons_of_mem _ hb)

/-! ## Invariants of all runs -/

/-- A property of the state survives the program, whether it succeeds or fails. -/
def Keeps (I : σ → Prop) (x : Exec ε σ α) : Prop := ∀ s, I s → I (x s).2

variable {I : σ → Prop}

theorem Keeps.bind {x : Exec ε σ α} {f : α → Exec ε σ β} (hx : Keeps I x)
    (hf : ∀ a, Keeps I (f a)) : Keeps I (x >>= f) := by
  intro s hs
  have ht := hx s hs
  cases hrun : x s with
  | mk r t =>
    rw [hrun] at ht
    cases r with
    | ok a =>
      rw [bind_of_ok hrun]
      exact hf a t ht
    | error e =>
      rw [bind_of_error hrun]
      exact ht

theorem keeps_pure (a : α) : Keeps I (pure a : Exec ε σ α) := fun _ hs => hs

theorem keeps_lift (x : Except ε α) : Keeps I (lift x : Exec ε σ α) := fun _ hs => hs

/-- What follows a computation may rely on its result. -/
theorem keeps_lift_bind {x : Except ε α} {f : α → Exec ε σ β}
    (h : ∀ a, x = .ok a → Keeps I (f a)) : Keeps I (lift x >>= f) := by
  cases x with
  | error e => exact fun s hs => hs
  | ok a => exact h a rfl

theorem keeps_modify {f : σ → σ} (h : ∀ s, I s → I (f s)) : Keeps I (modify f : Exec ε σ Unit) := h

theorem keeps_forEach {f : α → Exec ε σ Unit} {as : List α} (h : ∀ a ∈ as, Keeps I (f a)) :
    Keeps I (forEach f as) := by
  induction as with
  | nil => exact keeps_pure ()
  | cons a as ih =>
    exact (h a (List.mem_cons_self ..)).bind fun _ => ih fun b hb => h b (List.mem_cons_of_mem _ hb)

theorem keeps_get : Keeps I (get : Exec ε σ σ) := fun _ hs => hs

theorem keeps_throw (e : ε) : Keeps I (throw e : Exec ε σ α) := fun _ hs => hs

theorem keeps_ite {c : Prop} [Decidable c] {x y : Exec ε σ α} (hx : c → Keeps I x)
    (hy : ¬c → Keeps I y) : Keeps I (if c then x else y) := by
  split
  · exact hx ‹_›
  · exact hy ‹_›

/-- A program over one part of the state keeps what its own property is enough for. -/
theorem Keeps.zoom {part : σ → τ} {put : σ → τ → σ} {J : τ → Prop} {x : Exec ε τ α}
    (hx : Keeps J x) (hpart : ∀ s, I s → J (part s)) (hput : ∀ s t, I s → J t → I (put s t)) :
    Keeps I (Exec.zoom part put x) :=
  fun s hs => hput s _ hs (hx _ (hpart s hs))

/-! ## Errors without a trace -/

/-- The program changes nothing. -/
def Reads (x : Exec ε σ α) : Prop := ∀ s, (x s).2 = s

/-- If the program fails, it has changed nothing. -/
def FailsClean (x : Exec ε σ α) : Prop := ∀ s e s', x s = (.error e, s') → s' = s

theorem reads_get : Reads (get : Exec ε σ σ) := fun _ => rfl

theorem reads_gets (f : σ → α) : Reads (gets f : Exec ε σ α) := fun _ => rfl

theorem reads_ensure (c : Prop) [Decidable c] (e : ε) : Reads (ensure c e : Exec ε σ Unit) :=
  fun _ => rfl

theorem reads_fromOption (e : ε) (o : Option α) : Reads (fromOption e o : Exec ε σ α) :=
  fun _ => rfl

theorem Reads.failsClean {x : Exec ε σ α} (h : Reads x) : FailsClean x := fun s e s' hrun => by
  have hread := h s
  rw [hrun] at hread
  exact hread

theorem failsClean_pure (a : α) : FailsClean (pure a : Exec ε σ α) :=
  fun _ _ _ h => absurd h pure_ne_error

theorem failsClean_modify (f : σ → σ) : FailsClean (modify f : Exec ε σ Unit) :=
  fun _ _ _ h => absurd h modify_ne_error

theorem failsClean_throw (e : ε) : FailsClean (throw e : Exec ε σ α) :=
  fun _ _ _ h => (throw_eq_error.mp h).2.symm

/-- What only reads may come before. -/
theorem Reads.bind {x : Exec ε σ α} {f : α → Exec ε σ β} (hx : Reads x)
    (hf : ∀ a, FailsClean (f a)) : FailsClean (x >>= f) := by
  intro s e s' h
  rcases bind_eq_error.mp h with hfail | ⟨a, t, hrun, hfail⟩
  · exact hx.failsClean s e s' hfail
  · have hread := hx s
    rw [hrun] at hread
    obtain rfl : t = s := hread
    exact hf a t e s' hfail

/-- What never fails may come after. -/
theorem FailsClean.bind {x : Exec ε σ α} {f : α → Exec ε σ β} (hx : FailsClean x)
    (hf : ∀ a s e s', f a s ≠ (.error e, s')) : FailsClean (x >>= f) := by
  intro s e s' h
  rcases bind_eq_error.mp h with h | ⟨a, t, -, h⟩
  · exact hx s e s' h
  · exact absurd h (hf a t e s')

end Exec
