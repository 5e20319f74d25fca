import Kolme.Shared.Types

/-!
# The low half of the group order

The check of a signature compares the four limbs of `s` one by one. Together they decide how the
number `s` compares with half the order of the group.
-/

namespace Kolme

/-- The order of the group of secp256k1. -/
def secp256k1Order : Nat := 0xfffffffffffffffffffffffffffffffebaaedce6af48a03bbfd25e8cd0364141

/-- The second half of a signature as a number. -/
def Signature.s (self : Signature) : Nat := self.val % 2 ^ 256

/-! ## Limbs -/

/-- The high limbs decide unless they are equal. -/
theorem limbs_le_iff {base hi lo hi' lo' : Nat} (h : lo < base) (h' : lo' < base) :
    hi * base + lo ≤ hi' * base + lo' ↔ hi < hi' ∨ hi = hi' ∧ lo ≤ lo' := by
  rcases Nat.lt_trichotomy hi hi' with hlt | rfl | hgt
  · have hmul := Nat.mul_le_mul_right base hlt
    rw [Nat.succ_mul] at hmul
    omega
  · omega
  · have hmul := Nat.mul_le_mul_right base hgt
    rw [Nat.succ_mul] at hmul
    omega

/-- The number that four limbs stand for, the most significant one first. -/
def ofLimbs (a3 a2 a1 a0 : Nat) : Nat := ((a3 * 2 ^ 64 + a2) * 2 ^ 64 + a1) * 2 ^ 64 + a0

theorem ofLimbs_le_iff {a3 a2 a1 a0 b3 b2 b1 b0 : Nat} (ha2 : a2 < 2 ^ 64) (ha1 : a1 < 2 ^ 64)
    (ha0 : a0 < 2 ^ 64) (hb2 : b2 < 2 ^ 64) (hb1 : b1 < 2 ^ 64) (hb0 : b0 < 2 ^ 64) :
    ofLimbs a3 a2 a1 a0 ≤ ofLimbs b3 b2 b1 b0 ↔
      a3 < b3 ∨ a3 = b3 ∧ (a2 < b2 ∨ a2 = b2 ∧ (a1 < b1 ∨ a1 = b1 ∧ a0 ≤ b0)) := by
  simp only [ofLimbs]
  rw [limbs_le_iff ha0 hb0]
  omega

theorem Signature.s_eq (self : Signature) :
    self.s = ofLimbs (self.val / 2 ^ (64 * 3) % 2 ^ 64) (self.val / 2 ^ (64 * 2) % 2 ^ 64)
      (self.val / 2 ^ (64 * 1) % 2 ^ 64) (self.val / 2 ^ (64 * 0) % 2 ^ 64) := by
  simp only [Signature.s, ofLimbs]
  omega

/-- A signature is normalized exactly when `s` is positive and in the low half of the group
order. -/
theorem isNormalized_iff_low (sig : Signature) :
    sig.isNormalized = true ↔ 1 ≤ sig.s ∧ sig.s ≤ secp256k1Order / 2 := by
  have hhalf : secp256k1Order / 2 = ofLimbs 0x7fffffffffffffff 0xffffffffffffffff
    0x5d576e7357a4501d 0xdfe92f46681b20a0 := by decide
  rw [Signature.s_eq, hhalf]
  have ha0 : sig.val / 2 ^ (64 * 0) % 2 ^ 64 < 2 ^ 64 := Nat.mod_lt _ (by decide)
  have ha1 : sig.val / 2 ^ (64 * 1) % 2 ^ 64 < 2 ^ 64 := Nat.mod_lt _ (by decide)
  have ha2 : sig.val / 2 ^ (64 * 2) % 2 ^ 64 < 2 ^ 64 := Nat.mod_lt _ (by decide)
  rw [ofLimbs_le_iff ha2 ha1 ha0 (by decide) (by decide) (by decide)]
  simp only [Signature.isNormalized, Bool.and_eq_true, Bool.ite_eq_true_distrib, if_true_left,
    if_false_left, decide_eq_true_eq, Bool.false_eq_true]
  generalize sig.val / 2 ^ (64 * 0) % 2 ^ 64 = a0 at *
  generalize sig.val / 2 ^ (64 * 1) % 2 ^ 64 = a1 at *
  generalize sig.val / 2 ^ (64 * 2) % 2 ^ 64 = a2 at *
  generalize sig.val / 2 ^ (64 * 3) % 2 ^ 64 = a3 at *
  rw [ofLimbs]
  omega

/-- Zero is in the low half, and no signature with it is normalized. -/
theorem isNormalized_zero :
    ¬ ∀ sig : Signature, sig.isNormalized = true ↔ sig.s ≤ secp256k1Order / 2 := by
  intro h
  have hzero := (h 0).mpr (by decide)
  exact absurd hzero (by decide)

end Kolme
