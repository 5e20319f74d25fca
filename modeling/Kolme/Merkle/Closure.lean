import Kolme.Lib.Worklist
import Kolme.Merkle.Layers
import Kolme.Merkle.Save

/-!
# Stores that are closed

A store is closed if whatever is below a stored hash is stored. Layers are written after their
children, so saving keeps a store closed at every moment, and a value that was saved is there.
-/

namespace Kolme

open Merkle

/-- A store in memory. -/
instance [Sha256] : LayerStore MerkleLayers where
  saveByHash layers layer := .ok (layers.insert layer.hash layer)
  loadByHash layers hash := .ok (layers.get? hash)
  containsHash layers hash := layers.contains hash

namespace MerkleLayers

/-- Everything below a hash is stored. -/
inductive Complete (layers : MerkleLayers) : Sha256Hash → Prop
  | layer {hash : Sha256Hash} {layer : MerkleLayerContents} (stored : layers.get? hash = some layer)
    (children : ∀ child ∈ layer.children, Complete layers child) : Complete layers hash

variable {layers : MerkleLayers} {hash : Sha256Hash} {layer : MerkleLayerContents}

theorem Complete.contains (h : Complete layers hash) : layers.contains hash = true := by
  obtain ⟨stored, -⟩ := h
  exact SortedMap.contains_iff.mpr ⟨_, stored⟩

theorem Complete.insert (h : Complete layers hash) {new : Sha256Hash}
    (fresh : layers.contains new = false) : Complete (layers.insert new layer) hash := by
  induction h with
  | @layer hash other stored children ih =>
    refine .layer ?_ ih
    have hne : hash ≠ new := by
      rintro rfl
      rw [SortedMap.contains, stored] at fresh
      cases fresh
    rw [SortedMap.get?_insert_of_ne hne, stored]

variable [Sha256]

/-- Every layer is under its hash, and everything below it is stored. -/
structure Closed (layers : MerkleLayers) : Prop where
  hash : ∀ {h layer}, layers.get? h = some layer → layer.hash = h
  complete : ∀ {h}, layers.contains h = true → Complete layers h

theorem closed_empty : Closed .empty := ⟨nofun, nofun⟩

/-- A new layer is written after its children. -/
theorem Closed.insert (h : Closed layers) (fresh : layers.contains layer.hash = false)
    (children : ∀ child ∈ layer.children, layers.contains child = true) :
    Closed (layers.insert layer.hash layer) where
  hash {k l} hget := by
    rw [SortedMap.get?_insert] at hget
    split at hget
    · rw [← Option.some.inj hget, ‹k = layer.hash›]
    · exact h.hash hget
  complete {k} hcontains := by
    rcases contains_insert.mp hcontains with rfl | hstored
    · refine .layer ((SortedMap.get?_insert ..).trans (if_pos rfl)) fun child hchild => ?_
      exact (h.complete (children child hchild)).insert fresh
    · exact (h.complete hstored).insert fresh

/-- Whatever is stored in a closed store can be loaded. -/
theorem Closed.exists_storedIn (h : Closed layers) (stored : layers.contains hash = true) :
    ∃ contents : MerkleContents, contents.hash = hash ∧ contents.StoredIn layers.get? := by
  have hcomplete := h.complete stored
  clear stored
  induction hcomplete with
  | @layer hash layer stored children ih =>
    have hlist : ∀ hashes : List Sha256Hash, (∀ child ∈ hashes, child ∈ layer.children) →
        ∃ below : List MerkleContents, below.map MerkleContents.hash = hashes ∧
          ∀ child ∈ below, child.StoredIn layers.get? := by
      intro hashes hsub
      induction hashes with
      | nil => exact ⟨[], rfl, nofun⟩
      | cons child hashes ihHashes =>
        rw [List.forall_mem_cons] at hsub
        obtain ⟨contents, hhash, hcontents⟩ := ih child hsub.1
        obtain ⟨below, hhashes, hbelow⟩ := ihHashes hsub.2
        refine ⟨contents :: below, by rw [List.map_cons, hhash, hhashes], ?_⟩
        exact List.forall_mem_cons.mpr ⟨hcontents, hbelow⟩
    obtain ⟨below, hhashes, hbelow⟩ := hlist layer.children fun _ => id
    have hhash : (MerkleContents.mk layer.payload below).hash = hash := h.hash stored
    have hlayer : (MerkleContents.mk layer.payload below).layer = layer := by
      rw [MerkleContents.layer, MerkleContents.payload, MerkleContents.children, hhashes]
    refine ⟨.mk layer.payload below, hhash, fun within hwithin => ?_⟩
    cases hwithin with
    | refl => rw [hhash, hlayer, stored]
    | child hchild hwithin => exact hbelow _ hchild within hwithin

end MerkleLayers

/-- Contents that are stored have no more levels than there are layers. -/
theorem Merkle.MerkleContents.StoredIn.load_eq [Sha256] {layers : MerkleLayers}
    {contents : MerkleContents} (h : contents.StoredIn layers.get?) :
    layers.load contents.hash = .ok contents := by
  have hkeys : ∀ within, MerkleContents.Within within contents →
      within.hash ∈ layers.keys.toFinset := fun within hwithin =>
    List.mem_toFinset.mpr (SortedMap.mem_keys.mpr ⟨_, h within hwithin⟩)
  have hcard : layers.keys.toFinset.card ≤ layers.toList.length := by
    rw [← List.length_map Prod.fst]
    exact List.toFinset_card_le _
  exact h.load ((h.levels_le_card hkeys).trans (hcard.trans (Nat.le_succ _)))

namespace MerkleLayers

variable [Sha256] {layers : MerkleLayers} {root contents within : MerkleContents}

/-- No two parts of a value have the same hash, unless they are the same layer, and none has the
hash of another layer in the store. -/
structure Distinguishes (layers : MerkleLayers) (root : MerkleContents) : Prop where
  parts : ∀ {a b}, MerkleContents.Within a root → MerkleContents.Within b root →
    a.hash = b.hash → a.layer = b.layer
  stored : ∀ {a layer}, MerkleContents.Within a root → layers.get? a.hash = some layer →
    layer = a.layer

/-- A value whose root is stored in a closed store is stored. -/
theorem Closed.storedIn (h : Closed layers) (hstore : layers.Distinguishes root)
    (hroot : layers.contains root.hash = true) : root.StoredIn layers.get? := by
  have hpart : ∀ {within contents}, MerkleContents.Within within contents →
      MerkleContents.Within contents root → layers.contains contents.hash = true →
      layers.get? within.hash = some within.layer := by
    intro within contents hwithin
    induction hwithin with
    | refl contents =>
      intro hcontents hcontains
      obtain ⟨layer, hget⟩ := SortedMap.contains_iff.mp hcontains
      rw [hget, hstore.stored hcontents hget]
    | @child contents child within hchild hwithin ih =>
      intro hcontents hcontains
      refine ih ((MerkleContents.Within.child hchild (.refl child)).trans hcontents) ?_
      obtain ⟨hget, hbelow⟩ := h.complete hcontains
      rw [hstore.stored hcontents hget] at hbelow
      exact (hbelow _ (List.mem_map_of_mem hchild)).contains
  exact fun within hwithin => hpart hwithin (.refl root) hroot

end MerkleLayers

/-! ## Saving keeps a store closed -/

namespace Merkle

open MerkleLayers

variable [Sha256] {root contents : MerkleContents} {layers : MerkleLayers}
  {self next : Saving MerkleLayers} {n : ℕ}

/-- The hashes that have to be stored before an item of work is done. -/
def Work.needs (work : Work) : List Sha256Hash :=
  if work.checkChildren then [] else work.contents.children.map MerkleContents.hash

/-- The loop while it saves a value. Nothing is written twice, and nothing before its children. -/
structure Saving.Orderly (root : MerkleContents) (loop : Saving MerkleLayers) : Prop where
  closed : Closed loop.store
  saved : ∀ h ∈ loop.saved, loop.store.contains h = true
  fresh : ∀ work ∈ loop.work, loop.store.contains work.contents.hash = true →
    work.contents.hash ∈ loop.saved
  within : ∀ work ∈ loop.work, MerkleContents.Within work.contents root
  ready : Worklist.Ready (fun work : Work => work.contents.hash) Work.needs root.hash
    {h | loop.store.contains h = true} loop.work

theorem Saving.orderly_start (closed : Closed layers)
    (fresh : layers.contains root.hash = false) : (start layers root).Orderly root where
  closed := closed
  saved h hmem := absurd hmem (Finset.notMem_empty h)
  fresh work hwork hcontains := by
    rw [List.mem_singleton.mp hwork] at hcontains
    exact absurd (hcontains.symm.trans fresh) (by decide)
  within work hwork := List.mem_singleton.mp hwork ▸ .refl root
  ready := ⟨nofun, .inl rfl⟩

/-- The layer of the contents on top of the work is written. -/
theorem Saving.Orderly.write {store : MerkleLayers} {work : List Work} {saved : Finset Sha256Hash}
    (h : Orderly root ⟨store, ⟨contents, false⟩ :: work, saved⟩) (unsaved : contents.hash ∉ saved) :
    Orderly root ⟨store.insert contents.hash contents.layer, work, insert contents.hash saved⟩ where
  closed := by
    have fresh : store.contains contents.layer.hash = false := by
      rw [← Bool.not_eq_true]
      exact fun hcontains => unsaved (h.fresh _ (List.mem_cons_self ..) hcontains)
    exact h.closed.insert fresh h.ready.1
  saved k hk := by
    rcases Finset.mem_insert.mp hk with rfl | hk
    · exact contains_insert.mpr (.inl rfl)
    · exact contains_insert.mpr (.inr (h.saved k hk))
  fresh w hw hcontains := by
    rcases contains_insert.mp hcontains with heq | hstored
    · exact Finset.mem_insert.mpr (.inl heq)
    · exact Finset.mem_insert_of_mem (h.fresh w (List.mem_cons_of_mem _ hw) hstored)
  within w hw := h.within w (List.mem_cons_of_mem _ hw)
  ready := h.ready.2.mono fun k hk => contains_insert.mpr hk

theorem Saving.Orderly.step (h : self.Orderly root) (hstep : self.step = .ok next) :
    next.Orderly root := by
  obtain ⟨store, work, saved⟩ := self
  match work with
  | [] => exact Except.ok.inj hstep ▸ h
  | ⟨contents, true⟩ :: work =>
    obtain rfl := Except.ok.inj hstep
    have hmissing : ∀ w ∈ (contents.children.filter fun child =>
        !store.contains child.hash).reverse.map (Work.mk · true),
        ∃ child ∈ contents.children, store.contains child.hash = false ∧ w = ⟨child, true⟩ := by
      intro w hw
      obtain ⟨child, hchild, rfl⟩ := List.mem_map.mp hw
      rw [List.mem_reverse, List.mem_filter, Bool.not_eq_true'] at hchild
      exact ⟨child, hchild.1, hchild.2, rfl⟩
    refine ⟨h.closed, h.saved, fun w hw hcontains => ?_, fun w hw => ?_, ?_⟩
    · rcases List.mem_append.mp hw with hw | hw
      · obtain ⟨child, -, habsent, rfl⟩ := hmissing w hw
        exact absurd (habsent.symm.trans hcontains) (by decide)
      · rcases List.mem_cons.mp hw with rfl | hw
        · exact h.fresh ⟨contents, true⟩ (List.mem_cons_self ..) hcontains
        · exact h.fresh w (List.mem_cons_of_mem _ hw) hcontains
    · rcases List.mem_append.mp hw with hw | hw
      · obtain ⟨child, hchild, -, rfl⟩ := hmissing w hw
        exact (MerkleContents.Within.child hchild (.refl child)).trans
          (h.within ⟨contents, true⟩ (List.mem_cons_self ..))
      · rcases List.mem_cons.mp hw with rfl | hw
        · exact h.within ⟨contents, true⟩ (List.mem_cons_self ..)
        · exact h.within w (List.mem_cons_of_mem _ hw)
    · refine h.ready.expand rfl (fun w hw => ?_) fun k hk => ?_
      · obtain ⟨child, -, -, rfl⟩ := hmissing w hw
        rfl
      · obtain ⟨child, hchild, rfl⟩ := List.mem_map.mp hk
        cases hstored : store.contains child.hash with
        | true => exact .inl hstored
        | false =>
          refine .inr (List.mem_map.mpr ⟨⟨child, true⟩, List.mem_map.mpr ⟨child, ?_, rfl⟩, rfl⟩)
          rw [List.mem_reverse, List.mem_filter]
          exact ⟨hchild, congrArg not hstored⟩
  | ⟨contents, false⟩ :: work =>
    simp only [Saving.step] at hstep
    split at hstep
    · obtain rfl := Except.ok.inj hstep
      exact ⟨h.closed, h.saved, fun w hw => h.fresh w (List.mem_cons_of_mem _ hw),
        fun w hw => h.within w (List.mem_cons_of_mem _ hw), h.ready.skip (h.saved _ ‹_›)⟩
    · obtain rfl := Except.ok.inj hstep
      exact h.write ‹_›

/-- A store is closed at every moment while a value is saved. -/
theorem Saving.Orderly.steps (h : self.Orderly root) (hsteps : self.steps n = .ok next) :
    next.Orderly root :=
  Saving.steps_induction Orderly.step h hsteps

theorem Saving.exists_steps (self : Saving MerkleLayers) (n : ℕ) :
    ∃ next, self.steps n = .ok next := by
  induction n generalizing self with
  | zero => exact ⟨self, rfl⟩
  | succ n ih =>
    have hstep : ∃ next, self.step = .ok next := by
      obtain ⟨store, work, saved⟩ := self
      match work with
      | [] => exact ⟨_, rfl⟩
      | ⟨contents, true⟩ :: work => exact ⟨_, rfl⟩
      | ⟨contents, false⟩ :: work =>
        simp only [Saving.step]
        split
        · exact ⟨_, rfl⟩
        · exact ⟨_, rfl⟩
    obtain ⟨middle, hmiddle⟩ := hstep
    obtain ⟨next, hnext⟩ := ih middle
    exact ⟨next, by rw [steps, hmiddle]; exact hnext⟩

theorem Saving.Orderly.step_distinguishes (h : self.Orderly root)
    (hstore : self.store.Distinguishes root) (hstep : self.step = .ok next) :
    next.store.Distinguishes root := by
  obtain ⟨store, work, saved⟩ := self
  match work with
  | [] => exact Except.ok.inj hstep ▸ hstore
  | ⟨contents, true⟩ :: work =>
    obtain rfl := Except.ok.inj hstep
    exact hstore
  | ⟨contents, false⟩ :: work =>
    simp only [Saving.step] at hstep
    split at hstep
    · obtain rfl := Except.ok.inj hstep
      exact hstore
    · obtain rfl := Except.ok.inj hstep
      refine ⟨hstore.parts, fun {a layer} ha hget => ?_⟩
      change SortedMap.get? (store.insert contents.hash contents.layer) _ = _ at hget
      rw [SortedMap.get?_insert] at hget
      split at hget
      · rw [← Option.some.inj hget]
        exact hstore.parts (h.within ⟨contents, false⟩ (List.mem_cons_self ..)) ha (Eq.symm ‹_›)
      · exact hstore.stored ha hget

theorem Saving.Orderly.steps_distinguishes (h : self.Orderly root)
    (hstore : self.store.Distinguishes root) (hsteps : self.steps n = .ok next) :
    next.store.Distinguishes root :=
  (Saving.steps_induction (P := fun loop => loop.Orderly root ∧ loop.store.Distinguishes root)
    (fun h hstep => ⟨h.1.step hstep, h.1.step_distinguishes h.2 hstep⟩) ⟨h, hstore⟩ hsteps).2

/-- A value that was saved is stored, in a store that is closed again. -/
theorem saveMerkleContents_storedIn (closed : Closed layers)
    (hstore : layers.Distinguishes root) :
    ∃ layers', saveMerkleContents layers root = .ok layers' ∧ layers'.Closed ∧
      root.StoredIn layers'.get? := by
  unfold saveMerkleContents
  cases hroot : LayerStore.containsHash layers root.hash with
  | true => exact ⟨layers, rfl, closed, closed.storedIn hstore hroot⟩
  | false =>
    obtain ⟨last, hsteps⟩ := (Saving.start layers root).exists_steps root.turns
    have horderly := (Saving.orderly_start closed hroot).steps hsteps
    have hwork : last.work = [] := Saving.steps_work hsteps (by simp [Saving.start, Work.turns])
    have hdistinct := (Saving.orderly_start closed hroot).steps_distinguishes hstore hsteps
    have hstored := horderly.ready
    rw [hwork] at hstored
    refine ⟨last.store, ?_, horderly.closed, horderly.closed.storedIn hdistinct hstored⟩
    rw [hsteps]
    rfl

end Merkle

end Kolme
