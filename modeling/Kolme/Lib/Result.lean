import Mathlib.Data.List.Basic

/-!
# Fallible computations

Programs that stop at their first error are written in the `Except` monad. A success of such a
program is taken apart statement by statement with `bind_eq_ok` and `ensure_eq_ok`.
-/

namespace Except

universe u v

variable {ε : Type u} {α β : Type v}

/-- A sequence succeeds exactly when its first part does and its rest does on the value found. -/
theorem bind_eq_ok {x : Except ε α} {f : α → Except ε β} {b : β} :
    (x >>= f) = .ok b ↔ ∃ a, x = .ok a ∧ f a = .ok b := by
  rcases x with e | a <;> simp [bind, Except.bind]

@[simp] theorem ok_bind (a : α) (f : α → Except ε β) : ((.ok a : Except ε α) >>= f) = f a := rfl

@[simp] theorem error_bind (e : ε) (f : α → Except ε β) :
    ((.error e : Except ε α) >>= f) = .error e := rfl

@[simp] theorem pure_eq_ok (a : α) : (pure a : Except ε α) = .ok a := rfl

@[simp] theorem throw_eq_error (e : ε) : (throw e : Except ε α) = .error e := rfl

@[simp] theorem mapError_eq_ok {ε' : Type u} {f : ε → ε'} {x : Except ε α} {a : α} :
    x.mapError f = .ok a ↔ x = .ok a := by
  cases x <;> simp [Except.mapError]

/-- A check returns nothing, so there is nothing to choose when it is taken apart. -/
theorem exists_unit {p : Unit → Prop} : (∃ u, p u) ↔ p () :=
  ⟨fun ⟨(), h⟩ => h, fun h => ⟨(), h⟩⟩

/-- Stop with `e` unless `c` holds. -/
def ensure (c : Prop) [Decidable c] (e : ε) : Except ε Unit :=
  if c then .ok () else .error e

@[simp] theorem ensure_eq_ok {c : Prop} [Decidable c] {e : ε} {u : Unit} :
    ensure c e = .ok u ↔ c := by
  by_cases h : c <;> simp [ensure, h]

theorem ensure_of {c : Prop} [Decidable c] (h : c) (e : ε) : ensure c e = .ok () := if_pos h

theorem ensure_of_not {c : Prop} [Decidable c] (h : ¬c) (e : ε) : ensure c e = .error e := if_neg h

/-- The value of an option, or `e` when there is none. -/
def fromOption (e : ε) : Option α → Except ε α
  | some a => .ok a
  | none => .error e

@[simp] theorem fromOption_eq_ok {e : ε} {o : Option α} {a : α} :
    fromOption e o = .ok a ↔ o = some a := by
  cases o <;> simp [fromOption]

@[simp] theorem fromOption_some (e : ε) (a : α) : fromOption e (some a) = .ok a := rfl

@[simp] theorem fromOption_none (e : ε) : fromOption e (none : Option α) = .error e := rfl

theorem exists_of_isOk {x : Except ε α} (h : x.isOk = true) : ∃ a, x = .ok a := by
  cases x with
  | error e => cases h
  | ok a => exact ⟨a, rfl⟩

/-- The computation succeeds with a value that passes a test. -/
def okWith (p : α → Bool) : Except ε α → Bool
  | .ok a => p a
  | .error _ => false

theorem okWith_iff {x : Except ε α} {p : α → Bool} :
    x.okWith p = true ↔ ∃ a, x = .ok a ∧ p a = true := by
  cases x <;> simp [okWith]

theorem ite_error_eq_ok {c : Prop} [Decidable c] {e : ε} {x : Except ε α} {a : α} :
    (if c then .error e else x) = .ok a ↔ ¬c ∧ x = .ok a := by
  by_cases h : c <;> simp [h]

theorem mapM_eq_ok {f : α → Except ε β} {g : α → β} {as : List α}
    (h : ∀ a ∈ as, f a = .ok (g a)) : as.mapM f = .ok (as.map g) := by
  induction as with
  | nil => rfl
  | cons a as ih =>
    rw [List.mapM_cons, h a (List.mem_cons_self ..), ok_bind,
      ih fun b hb => h b (List.mem_cons_of_mem _ hb)]
    rfl

/-- A value for each element, by position. -/
theorem mapM_eq_ok_of_getElem? {f : α → Except ε β} {as : List α} {bs : List β}
    (hlength : bs.length = as.length)
    (h : ∀ (i : ℕ) (a : α) (b : β), as[i]? = some a → bs[i]? = some b → f a = .ok b) :
    as.mapM f = .ok bs := by
  induction as generalizing bs with
  | nil => rw [List.eq_nil_of_length_eq_zero hlength]; rfl
  | cons a as ih =>
    obtain ⟨b, bs, rfl⟩ := List.exists_cons_of_length_eq_add_one hlength
    rw [List.mapM_cons, h 0 a b rfl rfl, ok_bind, ih (Nat.succ_inj.mp hlength) fun i => h (i + 1)]
    rfl

end Except
