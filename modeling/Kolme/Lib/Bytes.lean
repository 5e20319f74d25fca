import Mathlib.Data.Fin.Basic
import Mathlib.Tactic.Ring

/-!
# Numbers as bytes

Fixed-width little-endian and big-endian readings of a byte list, and their round trips.
-/

/-- A string of bytes. -/
abbrev Bytes := List UInt8

namespace Bytes

/-! ## Widths of numbers -/

instance neZero_bytes2 : NeZero (256 ^ 2) := ⟨by decide⟩
instance neZero_bytes4 : NeZero (256 ^ 4) := ⟨by decide⟩
instance neZero_bytes8 : NeZero (256 ^ 8) := ⟨by decide⟩
instance neZero_bytes16 : NeZero (256 ^ 16) := ⟨by decide⟩
instance neZero_bytes32 : NeZero (256 ^ 32) := ⟨by decide⟩
instance neZero_bytes33 : NeZero (256 ^ 33) := ⟨by decide⟩
instance neZero_bytes64 : NeZero (256 ^ 64) := ⟨by decide⟩
instance neZero_bits128 : NeZero (2 ^ 128) := ⟨by decide⟩
instance neZero_bits160 : NeZero (2 ^ 160) := ⟨by decide⟩
instance neZero_bits256 : NeZero (2 ^ 256) := ⟨by decide⟩

/-! ## Byte orders -/

/-- The `k` low-order bytes of `n`, least significant first. -/
def toLE : Nat → Nat → Bytes
  | 0, _ => []
  | k + 1, n => UInt8.ofNat n :: toLE k (n / 256)

/-- The number whose bytes are `bs`, least significant first. -/
def ofLE : Bytes → Nat
  | [] => 0
  | b :: bs => b.toNat + 256 * ofLE bs

/-- The `k` low-order bytes of `n`, most significant first. -/
def toBE (k n : Nat) : Bytes := (toLE k n).reverse

/-- The number whose bytes are `bs`, most significant first. -/
def ofBE (bs : Bytes) : Nat := ofLE bs.reverse

@[simp] theorem length_toLE (k n : Nat) : (toLE k n).length = k := by
  induction k generalizing n with
  | zero => rfl
  | succ k ih => simp [toLE, ih]

@[simp] theorem length_toBE (k n : Nat) : (toBE k n).length = k := by simp [toBE]

theorem ofLE_toLE {k n : Nat} (h : n < 256 ^ k) : ofLE (toLE k n) = n := by
  induction k generalizing n with
  | zero =>
    have hn : n = 0 := by simpa using h
    simp [toLE, ofLE, hn]
  | succ k ih =>
    have hdiv : n / 256 < 256 ^ k := by
      rw [Nat.div_lt_iff_lt_mul (by decide)]
      simpa [pow_succ] using h
    rw [toLE, ofLE, ih hdiv, UInt8.toNat_ofNat']
    omega

theorem ofLE_lt (bs : Bytes) : ofLE bs < 256 ^ bs.length := by
  induction bs with
  | nil => simp [ofLE]
  | cons b bs ih =>
    have hb : b.toNat < 256 := b.toNat_lt
    rw [ofLE, List.length_cons, pow_succ]
    omega

theorem toLE_ofLE (bs : Bytes) : toLE bs.length (ofLE bs) = bs := by
  induction bs with
  | nil => rfl
  | cons b bs ih =>
    have hb : b.toNat < 256 := b.toNat_lt
    have hdiv : (b.toNat + 256 * ofLE bs) / 256 = ofLE bs := by omega
    have hlow : UInt8.ofNat (b.toNat + 256 * ofLE bs) = b := by
      apply UInt8.toNat_inj.mp
      rw [UInt8.toNat_ofNat']
      omega
    rw [List.length_cons, ofLE, toLE, hdiv, hlow, ih]

theorem ofBE_toBE {k n : Nat} (h : n < 256 ^ k) : ofBE (toBE k n) = n := by
  simp [ofBE, toBE, ofLE_toLE h]

theorem ofBE_lt (bs : Bytes) : ofBE bs < 256 ^ bs.length := by
  simpa [ofBE] using ofLE_lt bs.reverse

theorem toBE_ofBE (bs : Bytes) : toBE bs.length (ofBE bs) = bs := by
  have h := toLE_ofLE bs.reverse
  rw [List.length_reverse] at h
  rw [toBE, ofBE, h, List.reverse_reverse]

end Bytes
