import Kolme.Lib.SortedMap
import Kolme.Merkle.Contents

/-!
# The layers of a store

A value is saved layer by layer, children first, and layers that are there already are left alone.
So every layer that is stored has its children stored, and a value whose root is stored can be
loaded.
-/

namespace Kolme

open Merkle (MerkleContents MerkleLayerContents MerkleSerialError Sha256)

/-- The layers in the store. -/
abbrev MerkleLayers := SortedMap Sha256Hash MerkleLayerContents

variable [Sha256]

def Merkle.MerkleLayerContents.hash (layer : MerkleLayerContents) : Sha256Hash :=
  Sha256.hash layer.payload

namespace MerkleLayers

mutual
/-- Save contents, children first, unless they are there already. -/
def save (layers : MerkleLayers) : MerkleContents → MerkleLayers
  | .mk payload children =>
    let contents := MerkleContents.mk payload children
    if layers.contains contents.hash then layers
    else (saveAll layers children).insert contents.hash contents.layer
termination_by structural contents => contents

def saveAll (layers : MerkleLayers) : List MerkleContents → MerkleLayers
  | [] => layers
  | child :: children => saveAll (save layers child) children
termination_by structural children => children
end

omit [Sha256] in
/-- Load the contents under a hash. -/
def load (layers : MerkleLayers) (hash : Sha256Hash) : Except MerkleSerialError MerkleContents :=
  Merkle.loadMerkleContents layers.get? (layers.toList.length + 1) hash

end MerkleLayers

/-! ## Stores that are whole -/

/-- Contents whose payloads refer to their children. -/
def Merkle.MerkleContents.Authentic (refs : Bytes → List Sha256Hash) (contents : MerkleContents) :
    Prop :=
  ∀ within, MerkleContents.Within within contents →
    within.children.map MerkleContents.hash = refs within.payload

namespace MerkleLayers

variable {refs : Bytes → List Sha256Hash} {layers layers' : MerkleLayers}
  {contents : MerkleContents}

/-- Every layer is under its hash, has the children that its payload refers to, and these are
stored. -/
structure Whole (refs : Bytes → List Sha256Hash) (layers : MerkleLayers) : Prop where
  hash : ∀ {h layer}, layers.get? h = some layer → layer.hash = h
  children : ∀ {h layer}, layers.get? h = some layer → layer.children = refs layer.payload
  closed : ∀ {h layer}, layers.get? h = some layer → ∀ child ∈ layer.children,
    layers.contains child = true

omit [Sha256] in
/-- A store with all hashes of another. -/
def Grows (layers layers' : MerkleLayers) : Prop :=
  ∀ {h}, layers.contains h = true → layers'.contains h = true

omit [Sha256] in
theorem contains_insert {h h' : Sha256Hash} {layer : MerkleLayerContents} :
    (layers.insert h layer).contains h' = true ↔ h' = h ∨ layers.contains h' = true := by
  rw [SortedMap.contains, SortedMap.get?_insert]
  split
  · simp [*]
  · simp [*, SortedMap.contains]

omit [Sha256] in
theorem grows_insert (h : Sha256Hash) (layer : MerkleLayerContents) :
    layers.Grows (layers.insert h layer) :=
  fun hcontains => contains_insert.mpr (.inr hcontains)

theorem Whole.insert (whole : Whole refs layers) {layer : MerkleLayerContents}
    (hchildren : layer.children = refs layer.payload)
    (hclosed : ∀ child ∈ layer.children, layers.contains child = true) :
    Whole refs (layers.insert layer.hash layer) where
  hash {h l} hget := by
    rw [SortedMap.get?_insert] at hget
    split at hget
    · rw [← Option.some.inj hget, ‹h = layer.hash›]
    · exact whole.hash hget
  children {h l} hget := by
    rw [SortedMap.get?_insert] at hget
    split at hget
    · exact Option.some.inj hget ▸ hchildren
    · exact whole.children hget
  closed {h l} hget child hchild := by
    rw [SortedMap.get?_insert] at hget
    split at hget
    · exact grows_insert _ _ (hclosed child (Option.some.inj hget ▸ hchild))
    · exact grows_insert _ _ (whole.closed hget child hchild)

/-- What saving leads to: a whole store with more hashes. -/
structure Saves (refs : Bytes → List Sha256Hash) (layers layers' : MerkleLayers)
    (hashes : List Sha256Hash) : Prop where
  whole : Whole refs layers'
  grows : layers.Grows layers'
  stored : ∀ h ∈ hashes, layers'.contains h = true

mutual
theorem Whole.save {layers : MerkleLayers} (whole : Whole refs layers) (contents : MerkleContents)
    (authentic : contents.Authentic refs) :
    Saves refs layers (layers.save contents) [contents.hash] :=
  match contents with
  | .mk payload children => by
    rw [MerkleLayers.save]
    by_cases hstored : layers.contains (MerkleContents.mk payload children).hash = true
    · rw [if_pos hstored]
      exact ⟨whole, id, fun h hmem => List.mem_singleton.mp hmem ▸ hstored⟩
    · rw [if_neg hstored]
      have saved := Whole.saveAll whole children fun child hchild within hwithin =>
        authentic within (.child hchild hwithin)
      have hchildren : (MerkleContents.mk payload children).layer.children =
          refs (MerkleContents.mk payload children).layer.payload := authentic _ (.refl _)
      refine ⟨saved.whole.insert hchildren saved.stored, fun h => grows_insert _ _ (saved.grows h), fun h hmem => ?_⟩
      rw [List.mem_singleton.mp hmem]
      exact contains_insert.mpr (.inl rfl)
termination_by structural contents

theorem Whole.saveAll {layers : MerkleLayers} (whole : Whole refs layers) (children : List MerkleContents)
    (authentic : ∀ child ∈ children, child.Authentic refs) :
    Saves refs layers (layers.saveAll children) (children.map MerkleContents.hash) :=
  match children with
  | [] => ⟨whole, id, nofun⟩
  | child :: children => by
    rw [List.forall_mem_cons] at authentic
    have first := Whole.save whole child authentic.1
    have rest := Whole.saveAll first.whole children authentic.2
    refine ⟨rest.whole, fun h => rest.grows (first.grows h), fun h hmem => ?_⟩
    rcases List.mem_cons.mp hmem with rfl | hmem
    · exact rest.grows (first.stored _ (List.mem_singleton_self _))
    · exact rest.stored h hmem
termination_by structural children
end

/-! ## Loading what is stored -/

/-- No layer of the store has the hash of a part of the contents and another payload. -/
def Uncollided (layers : MerkleLayers) (contents : MerkleContents) : Prop :=
  ∀ {within layer}, MerkleContents.Within within contents →
    layers.get? within.hash = some layer → layer.payload = within.payload

/-- Contents whose root is stored in a whole store are stored. -/
theorem Whole.storedIn (whole : Whole refs layers) (authentic : contents.Authentic refs)
    (uncollided : layers.Uncollided contents) (hroot : layers.contains contents.hash = true) :
    contents.StoredIn layers.get? := by
  intro within hwithin
  induction hwithin with
  | refl contents =>
    obtain ⟨layer, hget⟩ := SortedMap.contains_iff.mp hroot
    have hpayload := uncollided (.refl contents) hget
    have hchildren := whole.children hget
    rw [hpayload, ← authentic contents (.refl contents)] at hchildren
    rw [hget]
    obtain ⟨payload, children⟩ := layer
    cases hpayload
    cases hchildren
    rfl
  | child hchild hwithin ih =>
    refine ih (fun within h => authentic within (.child hchild h))
      (fun h => uncollided (.child hchild h)) ?_
    obtain ⟨layer, hget⟩ := SortedMap.contains_iff.mp hroot
    refine whole.closed hget _ ?_
    rw [whole.children hget, uncollided (.refl _) hget, ← authentic _ (.refl _)]
    exact List.mem_map_of_mem hchild

/-- Contents whose root is stored in a whole store can be loaded. -/
theorem Whole.load (whole : Whole refs layers) (authentic : contents.Authentic refs)
    (uncollided : layers.Uncollided contents) (hroot : layers.contains contents.hash = true) :
    layers.load contents.hash = .ok contents := by
  have hstored := whole.storedIn authentic uncollided hroot
  have hkeys : ∀ within, MerkleContents.Within within contents →
      within.hash ∈ layers.keys.toFinset := fun within hwithin =>
    List.mem_toFinset.mpr (SortedMap.mem_keys.mpr ⟨_, hstored within hwithin⟩)
  have hcard : layers.keys.toFinset.card ≤ layers.toList.length := by
    rw [← List.length_map Prod.fst]
    exact List.toFinset_card_le _
  exact hstored.load ((hstored.levels_le_card hkeys).trans (hcard.trans (Nat.le_succ _)))

end MerkleLayers

end Kolme
