import Kolme.Lib.Result

/-!
# State machines with failing calls

A machine has one fallible `step`. A call that fails is rolled back: it leaves the state as it
was. A *run* is a list of calls, some of which may fail. `Along P s is` says that the side
condition `P` holds at every call of the run, in the state in which the call is made.

## Main results

* `Machine.run_invariant`: an invariant of every successful step holds after every run.
* `Machine.run_invariant_along`: the same for an invariant that needs the side condition.
-/

structure Machine (σ ι ε : Type*) where
  step : σ → ι → Except ε σ

namespace Machine

variable {σ ι ε : Type*} (M : Machine σ ι ε)

/-- The state after a call: the new one if the call succeeds, the old one if it fails. -/
def apply (s : σ) (i : ι) : σ :=
  match M.step s i with
  | .ok s' => s'
  | .error _ => s

/-- The state after a list of calls. -/
def run (s : σ) (is : List ι) : σ :=
  is.foldl M.apply s

/-- `P` holds at every call of the run `is` from `s`. -/
def Along (P : σ → ι → Prop) (s : σ) : List ι → Prop
  | [] => True
  | i :: is => P s i ∧ Along P (M.apply s i) is

/-- A property of states is preserved by every successful call. -/
def Preserves (I : σ → Prop) : Prop :=
  ∀ s i s', I s → M.step s i = .ok s' → I s'

theorem apply_of_ok {s s' : σ} {i : ι} (h : M.step s i = .ok s') : M.apply s i = s' := by
  simp [apply, h]

theorem apply_of_error {s : σ} {i : ι} {e : ε} (h : M.step s i = .error e) : M.apply s i = s := by
  simp [apply, h]

theorem step_of_isOk {s : σ} {i : ι} (h : (M.step s i).isOk = true) :
    M.step s i = .ok (M.apply s i) := by
  obtain ⟨s', hs'⟩ := Except.exists_of_isOk h
  rw [hs', M.apply_of_ok hs']

/-- What holds of a state and of every state a call can lead to from it holds after the call. -/
theorem apply_induction {P : σ → Prop} {s : σ} {i : ι} (same : P s)
    (next : ∀ s', M.step s i = .ok s' → P s') : P (M.apply s i) := by
  unfold apply
  split
  · exact next _ ‹_›
  · exact same

@[simp] theorem run_nil (s : σ) : M.run s [] = s := rfl

@[simp] theorem run_cons (s : σ) (i : ι) (is : List ι) :
    M.run s (i :: is) = M.run (M.apply s i) is := rfl

@[simp] theorem run_append (s : σ) (is js : List ι) :
    M.run s (is ++ js) = M.run (M.run s is) js := by
  simp [run, List.foldl_append]

@[simp] theorem along_nil (P : σ → ι → Prop) (s : σ) : M.Along P s [] := trivial

@[simp] theorem along_cons {P : σ → ι → Prop} {s : σ} {i : ι} {is : List ι} :
    M.Along P s (i :: is) ↔ P s i ∧ M.Along P (M.apply s i) is := Iff.rfl

theorem along_append {P : σ → ι → Prop} {s : σ} {is js : List ι} :
    M.Along P s (is ++ js) ↔ M.Along P s is ∧ M.Along P (M.run s is) js := by
  induction is generalizing s with
  | nil => simp
  | cons i is ih => simp [ih, and_assoc]

theorem Along.mono {P Q : σ → ι → Prop} (h : ∀ s i, P s i → Q s i) {s : σ} {is : List ι}
    (along : M.Along P s is) : M.Along Q s is := by
  induction is generalizing s with
  | nil => trivial
  | cons i is ih => exact ⟨h s i along.1, ih along.2⟩

/-- A condition on all calls of a run adds to the side condition. -/
theorem along_and {P : σ → ι → Prop} {Q : ι → Prop} {s : σ} {is : List ι}
    (calls : ∀ i ∈ is, Q i) (along : M.Along P s is) : M.Along (fun s i => Q i ∧ P s i) s is := by
  induction is generalizing s with
  | nil => trivial
  | cons i is ih =>
    rw [List.forall_mem_cons] at calls
    exact ⟨⟨calls.1, along.1⟩, ih calls.2 along.2⟩

/-- A condition that the calls meet in every state. -/
theorem along_of_forall {P : σ → ι → Prop} {is : List ι} (h : ∀ i ∈ is, ∀ s, P s i) (s : σ) :
    M.Along P s is := by
  induction is generalizing s with
  | nil => trivial
  | cons i is ih =>
    rw [List.forall_mem_cons] at h
    exact ⟨h.1 s, ih h.2 _⟩

/-- An invariant whose preservation needs the side condition `P` holds after every run that
meets `P` at each call. -/
theorem run_invariant_along {I : σ → Prop} {P : σ → ι → Prop}
    (preserve : ∀ s i s', I s → P s i → M.step s i = .ok s' → I s')
    {s : σ} {is : List ι} (start : I s) (along : M.Along P s is) : I (M.run s is) := by
  induction is generalizing s with
  | nil => exact start
  | cons i is ih =>
    exact ih (M.apply_induction start fun s' h => preserve s i s' start along.1 h) along.2

/-- An invariant of every successful call holds after every run. -/
theorem run_invariant {I : σ → Prop} (preserve : M.Preserves I) {s : σ} (start : I s)
    (is : List ι) : I (M.run s is) := by
  induction is generalizing s with
  | nil => exact start
  | cons i is ih =>
    exact ih (M.apply_induction start fun s' h => preserve s i s' start h)

/-- A side condition that follows from an invariant holds all along a run. -/
theorem along_of_invariant {I : σ → Prop} {P Q : σ → ι → Prop}
    (preserve : ∀ s i s', I s → P s i → M.step s i = .ok s' → I s')
    (gives : ∀ s i, I s → P s i → Q s i)
    {s : σ} {is : List ι} (start : I s) (along : M.Along P s is) : M.Along Q s is := by
  induction is generalizing s with
  | nil => trivial
  | cons i is ih =>
    refine ⟨gives s i start along.1, ih ?_ along.2⟩
    exact M.apply_induction start fun s' h => preserve s i s' start along.1 h

/-! ## Runs without failures -/

/-- The state after a list of calls that all succeed. -/
def steps (s : σ) : List ι → Except ε σ
  | [] => .ok s
  | i :: is => M.step s i >>= fun s' => steps s' is

@[simp] theorem steps_nil (s : σ) : M.steps s [] = .ok s := rfl

theorem steps_cons_eq_ok {s t : σ} {i : ι} {is : List ι} :
    M.steps s (i :: is) = .ok t ↔ ∃ u, M.step s i = .ok u ∧ M.steps u is = .ok t :=
  Except.bind_eq_ok

theorem steps_append_eq_ok {s t : σ} {is js : List ι} :
    M.steps s (is ++ js) = .ok t ↔ ∃ u, M.steps s is = .ok u ∧ M.steps u js = .ok t := by
  induction is generalizing s with
  | nil => simp
  | cons i is ih =>
    simp only [List.cons_append, steps_cons_eq_ok, ih]
    grind

theorem run_of_steps {s t : σ} {is : List ι} (h : M.steps s is = .ok t) : M.run s is = t := by
  induction is generalizing s with
  | nil => exact Except.ok.inj h
  | cons i is ih =>
    obtain ⟨u, hu, ht⟩ := M.steps_cons_eq_ok.mp h
    rw [run_cons, M.apply_of_ok hu, ih ht]

/-- The last call of a run without failures. -/
theorem step_of_steps {s t : σ} (is : List ι) {i : ι} (h : M.steps s (is ++ [i]) = .ok t) :
    M.step (M.run s is) i = .ok (M.run s (is ++ [i])) := by
  have hrun := M.run_of_steps h
  obtain ⟨u, hu, hi⟩ := M.steps_append_eq_ok.mp h
  obtain ⟨t', ht', hnil⟩ := M.steps_cons_eq_ok.mp hi
  rw [M.run_of_steps hu, hrun, ht']
  exact hnil

end Machine
