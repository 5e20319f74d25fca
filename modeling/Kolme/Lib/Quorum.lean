import Mathlib.Data.Finset.Card

/-!
# Quorums

A group of keys approves with a quorum of its members; a change of all groups needs two of three
of them. Counting members by distinct signers relates a quorum to who holds the keys.
-/

/-- At least two of three conditions hold. -/
def TwoOfThree (p q r : Prop) : Prop :=
  p ∧ q ∨ p ∧ r ∨ q ∧ r

namespace TwoOfThree

variable {p q r p' q' r' : Prop}

instance [Decidable p] [Decidable q] [Decidable r] : Decidable (TwoOfThree p q r) :=
  inferInstanceAs (Decidable (_ ∨ _ ∨ _))

theorem mono (hp : p → p') (hq : q → q') (hr : r → r') :
    TwoOfThree p q r → TwoOfThree p' q' r' := by
  unfold TwoOfThree
  tauto

/-- If the second condition fails, the other two hold. -/
theorem of_not_snd (h : TwoOfThree p q r) (hq : ¬q) : p ∧ r := by
  unfold TwoOfThree at h
  tauto

theorem iff_two_le (a b c : Bool) :
    TwoOfThree (a = true) (b = true) (c = true) ↔ 2 ≤ a.toNat + b.toNat + c.toNat := by
  unfold TwoOfThree
  revert a b c
  decide

end TwoOfThree
