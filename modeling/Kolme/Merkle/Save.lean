import Kolme.Merkle.Contents
import Mathlib.Algebra.Order.BigOperators.Group.List

/-!
# Saving contents in a store

Contents are saved with a list of work: the children of a layer that are not stored yet are put on
top of it, so that every layer is written after its children.
-/

namespace Kolme.Merkle

/-- What a store of layers offers. -/
class LayerStore (σ : Type) where
  saveByHash : σ → MerkleLayerContents → Except MerkleSerialError σ
  loadByHash : σ → Sha256Hash → Except MerkleSerialError (Option MerkleLayerContents)
  containsHash : σ → Sha256Hash → Bool

open LayerStore (saveByHash loadByHash containsHash)

/-- Contents to write, and whether their children need to be written first. -/
structure Work where
  contents : MerkleContents
  checkChildren : Bool

/-- The state of the loop that saves contents. The top of the work comes first. -/
structure Saving (σ : Type) where
  store : σ
  work : List Work
  saved : Finset Sha256Hash

variable {σ : Type} [LayerStore σ] [Sha256]

/-- One turn of the loop. -/
def Saving.step (self : Saving σ) : Except MerkleSerialError (Saving σ) :=
  match self.work with
  | [] => .ok self
  | ⟨contents, true⟩ :: work =>
    let missing := contents.children.filter fun child => !containsHash self.store child.hash
    .ok { self with work := missing.reverse.map (⟨·, true⟩) ++ ⟨contents, false⟩ :: work }
  | ⟨contents, false⟩ :: work =>
    -- Avoid resaving something that was already written during this execution.
    if contents.hash ∈ self.saved then .ok { self with work }
    else do
      let store ← saveByHash self.store contents.layer
      return { store, work, saved := insert contents.hash self.saved }

def Saving.steps : ℕ → Saving σ → Except MerkleSerialError (Saving σ)
  | 0, self => .ok self
  | n + 1, self => do
    let next ← self.step
    next.steps n

mutual
/-- The turns that saving some contents takes at most. -/
def MerkleContents.turns : MerkleContents → ℕ
  | .mk _ children => turnsOf children + 2
termination_by structural contents => contents

def MerkleContents.turnsOf : List MerkleContents → ℕ
  | [] => 0
  | child :: children => child.turns + turnsOf children
termination_by structural children => children
end

/-- The loop before its first turn. -/
def Saving.start (store : σ) (contents : MerkleContents) : Saving σ :=
  ⟨store, [⟨contents, true⟩], ∅⟩

/-- Save contents, unless they are stored already. -/
def saveMerkleContents (store : σ) (contents : MerkleContents) : Except MerkleSerialError σ :=
  if containsHash store contents.hash then .ok store
  else do
    let last ← (Saving.start store contents).steps contents.turns
    return last.store

/-- Load the contents under a hash, as far as they have the given number of levels. -/
def loadContents (store : σ) : ℕ → Sha256Hash → Except MerkleSerialError MerkleContents
  | 0, _ => .error .panic
  | levels + 1, hash => do
    match ← loadByHash store hash with
    | none => .error (.hashesNotFound {hash})
    | some layer =>
      let children ← layer.children.mapM (loadContents store levels)
      return .mk layer.payload children

/-! ## The loop comes to an end -/

/-- The turns that some work takes at most. -/
def Work.turns (work : Work) : ℕ := if work.checkChildren then work.contents.turns else 1

variable {self next : Saving σ} {contents : MerkleContents} {n : ℕ}

omit [Sha256] in
theorem MerkleContents.turns_eq (contents : MerkleContents) :
    contents.turns = turnsOf contents.children + 2 := by
  obtain ⟨payload, children⟩ := contents
  rfl

omit [Sha256] in
theorem MerkleContents.turnsOf_eq (children : List MerkleContents) :
    turnsOf children = (children.map turns).sum := by
  induction children with
  | nil => rfl
  | cons child children ih => rw [turnsOf, ih, List.map_cons, List.sum_cons]

theorem Saving.step_turns (h : self.step = .ok next) (hwork : self.work ≠ []) :
    (next.work.map Work.turns).sum < (self.work.map Work.turns).sum := by
  obtain ⟨store, work, saved⟩ := self
  match work, hwork with
  | ⟨contents, true⟩ :: work, _ =>
    obtain rfl := Except.ok.inj h
    have hmissing : ((contents.children.filter fun child =>
        !containsHash store child.hash).map MerkleContents.turns).sum ≤
        MerkleContents.turnsOf contents.children := by
      rw [MerkleContents.turnsOf_eq]
      exact (List.filter_sublist.map _).sum_le_sum fun _ _ => Nat.zero_le _
    have hturns : ((contents.children.filter fun child =>
        !containsHash store child.hash).reverse.map fun child =>
        Work.turns ⟨child, true⟩).sum ≤ MerkleContents.turnsOf contents.children := by
      rw [List.map_reverse, List.sum_reverse]
      exact hmissing
    simp only [List.map_append, List.map_map, List.map_cons, List.sum_append, List.sum_cons]
    rw [show Work.turns ⟨contents, true⟩ = contents.turns from rfl,
      show Work.turns ⟨contents, false⟩ = 1 from rfl, contents.turns_eq]
    exact Nat.lt_of_le_of_lt (Nat.add_le_add_right hturns _) (by omega)
  | ⟨contents, false⟩ :: work, _ =>
    rw [List.map_cons, List.sum_cons, show Work.turns ⟨contents, false⟩ = 1 from rfl]
    simp only [step] at h
    split at h
    · obtain rfl := Except.ok.inj h
      exact Nat.lt_add_of_pos_left Nat.one_pos
    · obtain ⟨store, -, h⟩ := Except.bind_eq_ok.mp h
      obtain rfl := Except.ok.inj h
      exact Nat.lt_add_of_pos_left Nat.one_pos

theorem Saving.steps_work (h : self.steps n = .ok next)
    (hn : (self.work.map Work.turns).sum ≤ n) : next.work = [] := by
  induction n generalizing self with
  | zero =>
    obtain rfl := Except.ok.inj h
    by_contra hwork
    obtain ⟨work, rest, he⟩ := List.exists_cons_of_ne_nil hwork
    rw [he, List.map_cons, List.sum_cons] at hn
    have hpos : 0 < work.turns := by
      obtain ⟨contents, _ | _⟩ := work
      · exact Nat.one_pos
      · exact Nat.lt_of_lt_of_eq (Nat.succ_pos _) contents.turns_eq.symm
    omega
  | succ n ih =>
    obtain ⟨middle, hstep, hrest⟩ := Except.bind_eq_ok.mp h
    by_cases hwork : self.work = []
    · refine ih hrest ?_
      rw [step, hwork] at hstep
      obtain rfl := Except.ok.inj hstep
      simp [hwork]
    · exact ih hrest (Nat.le_of_lt_succ ((step_turns hstep hwork).trans_le hn))

/-- A property of the loop that each turn keeps holds after any number of turns. -/
theorem Saving.steps_induction {P : Saving σ → Prop}
    (step : ∀ {self next : Saving σ}, P self → self.step = .ok next → P next) (start : P self)
    (h : self.steps n = .ok next) : P next := by
  induction n generalizing self with
  | zero => exact Except.ok.inj h ▸ start
  | succ n ih =>
    obtain ⟨middle, hstep, hrest⟩ := Except.bind_eq_ok.mp h
    exact ih (step start hstep) hrest

/-! ## Stores that represent others -/

section

variable {τ : Type} [LayerStore τ] {R : σ → τ → Prop}

/-- The operations of one store do what those of another do. -/
structure Simulates (R : σ → τ → Prop) : Prop where
  contains : ∀ {s : σ} {t : τ} hash, R s t → containsHash s hash = containsHash t hash
  load : ∀ {s : σ} {t : τ} hash, R s t → loadByHash s hash = loadByHash t hash
  save : ∀ {s : σ} {t t' : τ} {layer}, R s t → saveByHash t layer = .ok t' →
    ∃ s', saveByHash s layer = .ok s' ∧ R s' t'

/-- The same turn of the loop on both stores. -/
theorem Simulates.step (simulates : Simulates R) {s : σ} {t : τ} {work : List Work}
    {saved : Finset Sha256Hash} {next : Saving τ} (hrel : R s t)
    (h : (Saving.mk t work saved).step = .ok next) :
    ∃ s', (Saving.mk s work saved).step = .ok ⟨s', next.work, next.saved⟩ ∧ R s' next.store := by
  match work with
  | [] =>
    obtain rfl := Except.ok.inj h
    exact ⟨s, rfl, hrel⟩
  | ⟨contents, true⟩ :: work =>
    obtain rfl := Except.ok.inj h
    refine ⟨s, ?_, hrel⟩
    simp only [Saving.step, simulates.contains _ hrel]
  | ⟨contents, false⟩ :: work =>
    simp only [Saving.step] at h ⊢
    split at h
    · obtain rfl := Except.ok.inj h
      exact ⟨s, if_pos ‹_›, hrel⟩
    · obtain ⟨t', hsave, h⟩ := Except.bind_eq_ok.mp h
      obtain rfl := Except.ok.inj h
      obtain ⟨s', hsave', hrel'⟩ := simulates.save hrel hsave
      refine ⟨s', ?_, hrel'⟩
      rw [if_neg ‹_›, hsave']
      rfl

theorem Simulates.steps (simulates : Simulates R) {s : σ} {t : τ} {work : List Work}
    {saved : Finset Sha256Hash} {last : Saving τ} (hrel : R s t)
    (h : (Saving.mk t work saved).steps n = .ok last) :
    ∃ s', (Saving.mk s work saved).steps n = .ok ⟨s', last.work, last.saved⟩ ∧
      R s' last.store := by
  induction n generalizing s t work saved with
  | zero =>
    obtain rfl := Except.ok.inj h
    exact ⟨s, rfl, hrel⟩
  | succ n ih =>
    obtain ⟨next, hstep, hrest⟩ := Except.bind_eq_ok.mp h
    obtain ⟨s', hstep', hrel'⟩ := simulates.step hrel hstep
    obtain ⟨s'', hrest', hlast⟩ := ih hrel' hrest
    refine ⟨s'', ?_, hlast⟩
    rw [Saving.steps, hstep']
    exact hrest'

/-- Saving the same contents keeps stores related. -/
theorem Simulates.saveMerkleContents (simulates : Simulates R) {s : σ} {t t' : τ}
    (hrel : R s t) (h : saveMerkleContents t contents = .ok t') :
    ∃ s', Merkle.saveMerkleContents s contents = .ok s' ∧ R s' t' := by
  unfold Merkle.saveMerkleContents at h ⊢
  rw [simulates.contains _ hrel]
  split at h
  · obtain rfl := Except.ok.inj h
    exact ⟨s, if_pos ‹_›, hrel⟩
  · rw [if_neg ‹_›]
    obtain ⟨last, hsteps, h⟩ := Except.bind_eq_ok.mp h
    obtain rfl := Except.ok.inj h
    obtain ⟨s', hsteps', hrel'⟩ := simulates.steps hrel hsteps
    rw [Saving.start, hsteps']
    exact ⟨s', rfl, hrel'⟩

omit [Sha256] in
/-- Related stores load the same. -/
theorem Simulates.loadContents (simulates : Simulates R) {s : σ} {t : τ} (hrel : R s t)
    (levels : ℕ) (hash : Sha256Hash) : loadContents s levels hash = loadContents t levels hash := by
  induction levels generalizing hash with
  | zero => rfl
  | succ levels ih =>
    have hload : (fun hash => Merkle.loadContents s levels hash) =
        fun hash => Merkle.loadContents t levels hash := funext ih
    simp only [Merkle.loadContents, simulates.load hash hrel, hload]

end

end Kolme.Merkle
