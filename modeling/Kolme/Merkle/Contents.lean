import Kolme.Shared.Types
import Kolme.Lib.Result

/-!
# Serialized contents and stores

A serialized value is a payload with the contents of the values that it refers to by hash. A store
holds one layer under each hash: a payload and the hashes of its direct children.
-/

namespace Kolme.Merkle

/-- The hash function. -/
class Sha256 where
  hash : Bytes → Sha256Hash

/-- The serialized contents of a value. -/
inductive MerkleContents where
  | mk (payload : Bytes) (children : List MerkleContents)

/-- The contents of a single layer. -/
structure MerkleLayerContents where
  payload : Bytes
  children : List Sha256Hash
deriving DecidableEq

/-- Errors that can occur during serialization of data. -/
inductive MerkleSerialError
  | insufficientInput
  | usizeOverflow
  | unexpectedMagicByte (byte : UInt8)
  | invalidTreeStart (byte : UInt8)
  | tooMuchInput
  | hashesNotFound (hashes : Finset Sha256Hash)
  | leafContentLimitExceeded (limit actual : Nat)
  | unexpectedVersion (highestSupported actual offset : Nat)
  | custom (text : String)
  | other (text : String)
  | panic
deriving DecidableEq

abbrev MerkleStore := Sha256Hash → Option MerkleLayerContents

namespace MerkleContents

def payload : MerkleContents → Bytes
  | mk payload _ => payload

def children : MerkleContents → List MerkleContents
  | mk _ children => children

variable [Sha256]

def hash (contents : MerkleContents) : Sha256Hash := Sha256.hash contents.payload

def layer (contents : MerkleContents) : MerkleLayerContents :=
  ⟨contents.payload, contents.children.map hash⟩

/-- Contents within contents. -/
inductive Within : MerkleContents → MerkleContents → Prop
  | refl (contents : MerkleContents) : Within contents contents
  | child {contents child within : MerkleContents} (hchild : child ∈ contents.children)
    (h : Within within child) : Within within contents

mutual
/-- The number of levels of layers. -/
def levels : MerkleContents → Nat
  | mk _ children => levelsOf children + 1
termination_by structural contents => contents

def levelsOf : List MerkleContents → Nat
  | [] => 0
  | child :: children => max child.levels (levelsOf children)
termination_by structural children => children
end

/-- Every layer of the contents is what the store holds under its hash. -/
def StoredIn (store : MerkleStore) (contents : MerkleContents) : Prop :=
  ∀ within, Within within contents → store within.hash = some within.layer

end MerkleContents

/-- The contents below a hash, as far as they have the given number of levels. -/
def loadMerkleContents (store : MerkleStore) :
    Nat → Sha256Hash → Except MerkleSerialError MerkleContents
  | 0, _ => .error .panic
  | levels + 1, hash =>
    match store hash with
    | none => .error (.hashesNotFound {hash})
    | some layer => do
      let children ← layer.children.mapM (loadMerkleContents store levels)
      return .mk layer.payload children

/-! ## Loading what was saved -/

namespace MerkleContents

variable [Sha256] {store : MerkleStore} {contents below : MerkleContents}

theorem StoredIn.child (h : contents.StoredIn store) (hbelow : below ∈ contents.children) :
    below.StoredIn store :=
  fun within hwithin => h within (.child hbelow hwithin)

omit [Sha256] in
theorem levels_lt_of_mem (hbelow : below ∈ contents.children) : below.levels < contents.levels := by
  obtain ⟨payload, children⟩ := contents
  rw [levels, Nat.lt_succ_iff]
  change below ∈ children at hbelow
  induction children with
  | nil => nomatch hbelow
  | cons other children ih =>
    rw [levelsOf]
    rcases List.mem_cons.mp hbelow with rfl | hmem
    · exact le_max_left _ _
    · exact (ih hmem).trans (le_max_right _ _)

omit [Sha256] in
theorem levels_pos (contents : MerkleContents) : 0 < contents.levels := by
  obtain ⟨payload, children⟩ := contents
  exact Nat.succ_pos _

omit [Sha256] in
theorem levels_le_succ {n : Nat} (h : ∀ child ∈ contents.children, child.levels ≤ n) :
    contents.levels ≤ n + 1 := by
  obtain ⟨payload, children⟩ := contents
  rw [levels, Nat.add_le_add_iff_right]
  change ∀ child ∈ children, child.levels ≤ n at h
  induction children with
  | nil => exact Nat.zero_le n
  | cons child children ih =>
    rw [List.forall_mem_cons] at h
    exact max_le h.1 (ih h.2)

omit [Sha256] in
theorem Within.trans {middle : MerkleContents} (h : Within below middle)
    (h' : Within middle contents) : Within below contents := by
  induction h' with
  | refl => exact h
  | child hchild _ ih => exact .child hchild (ih h)

omit [Sha256] in
theorem Within.levels_le (h : Within below contents) : below.levels ≤ contents.levels := by
  induction h with
  | refl => exact le_rfl
  | child hchild _ ih => exact ih.trans (levels_lt_of_mem hchild).le

theorem StoredIn.within (h : contents.StoredIn store) (hbelow : Within below contents) :
    below.StoredIn store := by
  induction hbelow with
  | refl => exact h
  | child hchild _ ih => exact ih (h.child hchild)

/-- A store with all layers of some contents gives them back. -/
theorem StoredIn.load (h : contents.StoredIn store) {levels : Nat}
    (hlevels : contents.levels ≤ levels) :
    loadMerkleContents store levels contents.hash = .ok contents := by
  induction levels generalizing contents with
  | zero =>
    obtain ⟨payload, children⟩ := contents
    exact absurd hlevels (by simp [MerkleContents.levels])
  | succ levels ih =>
    have hlayer := h contents (.refl contents)
    have hchildren : (contents.children.map hash).mapM (loadMerkleContents store levels) =
        .ok contents.children := by
      have hload : ∀ child ∈ contents.children,
          (loadMerkleContents store levels ∘ hash) child = .ok (id child) := fun child hchild =>
        ih (h.child hchild) (by have := levels_lt_of_mem hchild; omega)
      rw [List.mapM_map, Except.mapM_eq_ok hload, List.map_id]
    rw [loadMerkleContents, hlayer]
    simp only [layer, hchildren, Except.ok_bind]
    cases contents
    rfl

/-- Contents that are stored are told apart by their hashes. -/
theorem StoredIn.eq_of_hash (h : contents.StoredIn store) (h' : below.StoredIn store)
    (hhash : contents.hash = below.hash) : contents = below := by
  have hload := h.load (le_max_left contents.levels below.levels)
  rw [hhash, h'.load (le_max_right _ _)] at hload
  exact (Except.ok.inj hload).symm

/-- Contents have no more levels than there are hashes in them. -/
theorem StoredIn.levels_le_card (h : contents.StoredIn store) {hashes : Finset Sha256Hash}
    (hhashes : ∀ within, Within within contents → within.hash ∈ hashes) :
    contents.levels ≤ hashes.card := by
  induction hlevels : contents.levels using Nat.strong_induction_on generalizing contents hashes with
  | _ levels ih =>
    subst hlevels
    have hroot := hhashes contents (.refl contents)
    have hchildren : ∀ child ∈ contents.children, child.levels ≤ (hashes.erase contents.hash).card := by
      intro child hchild
      refine ih _ (levels_lt_of_mem hchild) (h.child hchild) (fun within hwithin => ?_) rfl
      refine Finset.mem_erase.mpr ⟨fun he => ?_, hhashes within (.child hchild hwithin)⟩
      obtain rfl := (h.within (.child hchild hwithin)).eq_of_hash h he
      exact absurd hwithin.levels_le (Nat.not_le.mpr (levels_lt_of_mem hchild))
    have hle := levels_le_succ hchildren
    rwa [Finset.card_erase_add_one hroot] at hle

end MerkleContents

end Kolme.Merkle
