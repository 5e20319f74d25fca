import Kolme.Lib.Bytes
import Mathlib.Data.List.Lex
import Mathlib.Order.Fin.Basic

/-!
# Keys of the Merkle map

A key is a byte string. The tree reads it nibble by nibble, the high one of a byte first, and the
order of the bytes is the order of the nibbles.
-/

namespace Kolme.Merkle

/-- A key used in a `MerkleMap`. -/
@[ext] structure MerkleKey where
  bytes : Bytes
deriving DecidableEq

/-- A branch of a tree. -/
abbrev Nibble := Fin 16

instance neZero_nibble : NeZero 16 := ⟨by decide⟩

def highNibble (byte : UInt8) : Nibble := ⟨byte.toNat / 16, by have := byte.toNat_lt; omega⟩

def lowNibble (byte : UInt8) : Nibble := ⟨byte.toNat % 16, by omega⟩

namespace MerkleKey

/-- The bytes are compared from the left. -/
instance : LinearOrder MerkleKey :=
  LinearOrder.lift' (fun key => key.bytes.map UInt8.toFin) fun _ _ h =>
    MerkleKey.ext (List.map_injective_iff.mpr (fun _ _ => UInt8.toFin_inj.mp) h)

def getIndexForDepth (key : MerkleKey) (depth : Nat) : Option Nibble := do
  -- First get the byte in question, then either the high or the low bits.
  let byte ← key.bytes[depth / 2]?
  return if depth % 2 = 0 then highNibble byte else lowNibble byte

/-! ## Nibbles -/

def nibblesOf : Bytes → List Nibble
  | [] => []
  | byte :: bytes => highNibble byte :: lowNibble byte :: nibblesOf bytes

/-- The path of the key from the root of a tree. -/
def nibbles (key : MerkleKey) : List Nibble := nibblesOf key.bytes

theorem getIndexForDepth_eq (key : MerkleKey) (depth : Nat) :
    key.getIndexForDepth depth = key.nibbles[depth]? := by
  obtain ⟨bytes⟩ := key
  simp only [getIndexForDepth, nibbles]
  induction bytes generalizing depth with
  | nil => simp [nibblesOf]
  | cons byte bytes ih =>
    match depth with
    | 0 => rfl
    | 1 => rfl
    | depth + 2 =>
      rw [Nat.add_div_right _ (by decide), Nat.add_mod_right]
      simpa [nibblesOf] using ih depth

@[simp] theorem length_nibbles (key : MerkleKey) :
    key.nibbles.length = 2 * key.bytes.length := by
  obtain ⟨bytes⟩ := key
  simp only [nibbles]
  induction bytes with
  | nil => rfl
  | cons byte bytes ih =>
    simp only [nibblesOf, List.length_cons, ih]
    omega

theorem lt_iff_bytes {a b : MerkleKey} :
    a < b ↔ a.bytes.map UInt8.toFin < b.bytes.map UInt8.toFin := Iff.rfl

theorem toFin_lt_iff {a b : UInt8} :
    a.toFin < b.toFin ↔
      highNibble a < highNibble b ∨ highNibble a = highNibble b ∧ lowNibble a < lowNibble b := by
  simp only [Fin.lt_def, Fin.ext_iff, highNibble, lowNibble, UInt8.toFin_val]
  omega

theorem toFin_eq_iff {a b : UInt8} :
    a.toFin = b.toFin ↔ highNibble a = highNibble b ∧ lowNibble a = lowNibble b := by
  simp only [Fin.ext_iff, highNibble, lowNibble, UInt8.toFin_val]
  omega

/-- Keys are ordered as their paths are. -/
theorem lt_iff_nibbles {a b : MerkleKey} : a < b ↔ a.nibbles < b.nibbles := by
  obtain ⟨as⟩ := a
  obtain ⟨bs⟩ := b
  rw [lt_iff_bytes]
  simp only [nibbles]
  induction as generalizing bs with
  | nil => cases bs <;> simp [nibblesOf]
  | cons a as ih =>
    cases bs with
    | nil => simp [nibblesOf]
    | cons b bs =>
      simp only [List.map_cons, nibblesOf, List.cons_lt_cons_iff, ih, toFin_lt_iff, toFin_eq_iff]
      tauto

theorem nibbles_injective : Function.Injective nibbles := by
  intro a b h
  rcases lt_trichotomy a b with hlt | heq | hgt
  · exact absurd (lt_iff_nibbles.mp hlt) (h ▸ lt_irrefl _)
  · exact heq
  · exact absurd (lt_iff_nibbles.mp hgt) (h ▸ lt_irrefl _)

/-! ## Paths -/

variable {path : List Nibble} {key : MerkleKey} {index : Nibble}

/-- A key ends at the node it leads to, or goes on in one of its branches. -/
theorem getIndexForDepth_eq_none (h : path <+: key.nibbles) :
    key.getIndexForDepth path.length = none ↔ key.nibbles = path := by
  rw [getIndexForDepth_eq]
  obtain ⟨rest, hrest⟩ := h
  rw [← hrest]
  simp

theorem getIndexForDepth_eq_some (h : path <+: key.nibbles) :
    key.getIndexForDepth path.length = some index ↔ path ++ [index] <+: key.nibbles := by
  rw [getIndexForDepth_eq]
  obtain ⟨rest, hrest⟩ := h
  rw [← hrest, List.getElem?_append_right (Nat.le_refl _), Nat.sub_self,
    List.prefix_append_right_inj]
  cases rest <;> simp [eq_comm]

end MerkleKey

end Kolme.Merkle
