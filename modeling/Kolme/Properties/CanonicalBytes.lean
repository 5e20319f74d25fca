import Kolme.Merkle.Canonical
import Kolme.Store.Formats

/-!
# Bytes in more than one form

The decoder checks neither the order of keys, nor that elements differ, nor the lengths that trees
declare, nor that lengths are as short as they can be, nor that a bool is zero or one. A value is
serialized as the bytes it was read from, and is valid, exactly if the bytes have all of this.
-/

namespace Kolme

open Exec Merkle MerkleDeserializer MerkleSerializer

open CanonicalFormat (canonical)

section

variable [Sha256] {α : Type} [MerkleSerializeRaw α] [MerkleDeserializeRaw α] [CanonicalFormat α]

/-- The bytes of the contents are in canonical form where a value of the type has more than one: no
length begins with an empty chunk, bools are zero or one, the elements of sets and the keys of maps
ascend, the keys in a leaf ascend and begin with the path of the leaf, and a tree declares the
entries it has, more than sixteen, with its own at its path. -/
def CanonicalBytes (α : Type) [MerkleSerializeRaw α] [MerkleDeserializeRaw α] [CanonicalFormat α]
    (contents : MerkleContents) : Prop :=
  (canonical : Canonical (load : Load α) store Sound).Holds (.new contents)

omit [Sha256] [MerkleSerializeRaw α] [CanonicalFormat α] in
theorem deserialize_eq_ok {contents : MerkleContents} {a : α} (h : deserialize contents = .ok a) :
    ∃ d, load (.new contents) = (.ok a, d) ∧ d.contents.payload.length = d.pos := by
  have hrun : loadWhole load (.new contents) = (.ok a, (loadWhole (load : Load α) (.new contents)).2) :=
    Prod.ext h rfl
  obtain ⟨a', d, hload, hrest⟩ := bind_eq_ok.mp hrun
  obtain ⟨_, d', hfinish, hpure⟩ := bind_eq_ok.mp hrest
  obtain ⟨rfl, -⟩ := pure_eq_ok.mp hpure
  rw [MerkleDeserializer.finish, get_bind, ensure_eq_ok] at hfinish
  exact ⟨d, hload, hfinish.1⟩

section

variable {contents : MerkleContents} (small : ∀ within, MerkleContents.Within within contents →
  within.payload.length < memoryLimit)
include small

theorem sound_iff_canonicalBytes {a : α} (h : deserialize contents = .ok a)
    (apart : Apart contents (store a)) :
    Sound a ∧ (serialize a).payload = contents.payload ↔ CanonicalBytes α contents := by
  obtain ⟨d, hload, hend⟩ := deserialize_eq_ok h
  have hinside : (MerkleDeserializer.new contents).Inside := ⟨Nat.zero_le _, small⟩
  exact canonical.iff hinside hload (canonical.whole hinside hload hend) apart

theorem serialize_bool_iff {b : Bool} (h : deserialize contents = .ok b) :
    (serialize b).payload = contents.payload ↔ contents.payload = [0] ∨ contents.payload = [1] := by
  have apart : Apart contents (store b) := fun _ h => by cases h
  have hsound : Sound b := trivial
  rw [← and_iff_right (b := (serialize b).payload = contents.payload) hsound,
    sound_iff_canonicalBytes small h apart]
  obtain ⟨d, hload, hend⟩ := deserialize_eq_ok h
  obtain ⟨byte, d₁, hbyte, hpure⟩ := bind_eq_ok.mp hload
  obtain ⟨-, rfl⟩ := pure_eq_ok.mp hpure
  obtain ⟨tail, hrest, rfl⟩ := popByte_eq_ok.mp hbyte
  change contents.payload = byte :: tail at hrest
  change contents.payload.length = 1 at hend
  rw [hrest, List.length_cons, Nat.add_eq_right, List.length_eq_zero_iff] at hend
  subst hend
  change (∀ byte tail, contents.payload = byte :: tail → byte.toNat < 2) ↔ _
  rw [hrest]
  constructor
  · intro h
    have hlt := h byte [] rfl
    have hcases : byte.toNat = 0 ∨ byte.toNat = 1 := by omega
    exact hcases.imp (fun h => congrArg (· :: []) (UInt8.toNat_inj.mp h))
      fun h => congrArg (· :: []) (UInt8.toNat_inj.mp h)
  · rintro (h | h) _ _ ⟨⟩ <;> obtain ⟨rfl, -⟩ := List.cons.inj h <;> decide

theorem serialize_of_canonicalBytes {a : α} (h : deserialize contents = .ok a)
    (childless : (store a).children = []) (canonical : CanonicalBytes α contents) :
    (serialize a).payload = contents.payload := by
  have apart : Apart contents (store a) := fun child hchild => by
    rw [childless] at hchild
    cases hchild
  exact ((sound_iff_canonicalBytes small h apart).mpr canonical).2

end

end

namespace CanonicalSample

scoped instance : Sha256 := ⟨fun _ => 0⟩

end CanonicalSample

/-- A leaf with the keys 2 and 1, in this order. -/
def swappedLeaf : Bytes := [42, 2, 8, 0, 0, 0, 0, 0, 0, 0, 2, 7, 8, 0, 0, 0, 0, 0, 0, 0, 1, 9]

def swappedEntries : List (LeafEntry ℕ UInt8) :=
  [⟨⟨[0, 0, 0, 0, 0, 0, 0, 2]⟩, 2, 7⟩, ⟨⟨[0, 0, 0, 0, 0, 0, 0, 1]⟩, 1, 9⟩]

end Kolme
