import Kolme.Lib.Result
import Mathlib.Algebra.Order.Field.Rat
import Mathlib.Tactic.Positivity

/-!
# Decimal numbers

A decimal is a sign, an integer of 96 bits and a scale of at most 28. The sign of a zero is kept.
The arithmetic comes from outside and is collected in `Arith`; it fails where a result has no
representation, and `Arith.Exact` says that it does not round.
-/

namespace Kolme

structure Decimal where
  negative : Bool
  int : Fin (2 ^ 96)
  scale : Fin 29
deriving DecidableEq

namespace Decimal

instance neZero_int : NeZero (2 ^ 96) := ⟨by decide⟩
instance neZero_scale : NeZero 29 := ⟨by decide⟩

def zero : Decimal := ⟨false, 0, 0⟩

def isZero (d : Decimal) : Bool := d.int = 0

def isSignNegative (d : Decimal) : Bool := d.negative

def mantissa (d : Decimal) : Int := if d.negative then -d.int.val else d.int.val

/-- The comparison of the numbers, whatever their scales. -/
def cmp (a b : Decimal) : Ordering :=
  compare (a.mantissa * 10 ^ b.scale.val) (b.mantissa * 10 ^ a.scale.val)

/-- The number a decimal stands for. -/
def toRat (d : Decimal) : ℚ := d.mantissa / 10 ^ d.scale.val

@[simp] theorem toRat_zero : zero.toRat = 0 := by simp [zero, toRat, mantissa]

theorem toRat_lt_iff {a b : Decimal} :
    a.toRat < b.toRat ↔ a.mantissa * 10 ^ b.scale.val < b.mantissa * 10 ^ a.scale.val := by
  have ha : (0 : ℚ) < 10 ^ a.scale.val := by positivity
  have hb : (0 : ℚ) < 10 ^ b.scale.val := by positivity
  rw [toRat, toRat, div_lt_div_iff₀ ha hb]
  exact_mod_cast Iff.rfl

theorem cmp_eq_lt {a b : Decimal} : a.cmp b = .lt ↔ a.toRat < b.toRat := by
  rw [cmp, compare_lt_iff_lt, toRat_lt_iff]

theorem cmp_eq_gt {a b : Decimal} : a.cmp b = .gt ↔ b.toRat < a.toRat := by
  rw [cmp, compare_gt_iff_gt, toRat_lt_iff]

theorem cmp_eq_eq {a b : Decimal} : a.cmp b = .eq ↔ a.toRat = b.toRat := by
  have ha : (10 : ℚ) ^ a.scale.val ≠ 0 := by positivity
  have hb : (10 : ℚ) ^ b.scale.val ≠ 0 := by positivity
  rw [cmp, compare_eq_iff_eq, toRat, toRat, div_eq_div_iff ha hb]
  exact_mod_cast Iff.rfl

/-- What is neither zero nor negative is positive. -/
theorem toRat_pos {d : Decimal} (h : ¬(d.isZero = true ∨ d.isSignNegative = true)) :
    0 < d.toRat := by
  simp only [isZero, isSignNegative, decide_eq_true_eq, not_or, Bool.not_eq_true] at h
  have hpos : 0 < d.int.val := Nat.pos_of_ne_zero fun h0 => h.1 (Fin.ext h0)
  simp only [toRat, mantissa, h.2, Bool.false_eq_true, if_false]
  positivity

end Decimal

/-- The conversions and the arithmetic of decimals. -/
structure Arith where
  tryFromI128WithScale : Int → Nat → Option Decimal
  checkedAdd : Decimal → Decimal → Option Decimal
  checkedSub : Decimal → Decimal → Option Decimal

/-- Which integers have a decimal of a given scale: those of at most 96 bits. -/
structure Arith.Lawful (ar : Arith) : Prop where
  tryFrom_eq : ∀ (n scale : Nat), ar.tryFromI128WithScale n scale =
    if h : n < 2 ^ 96 ∧ scale < 29 then some ⟨false, ⟨n, h.1⟩, ⟨scale, h.2⟩⟩ else none

/-- No result is rounded. -/
structure Arith.Exact (ar : Arith) : Prop where
  add : ∀ {a b c}, ar.checkedAdd a b = some c → c.toRat = a.toRat + b.toRat
  sub : ∀ {a b c}, ar.checkedSub a b = some c → c.toRat = a.toRat - b.toRat

/-- Sums and differences have the right sign, whether or not they are rounded. -/
structure Arith.SignCorrect (ar : Arith) : Prop where
  add_nonneg : ∀ {a b c}, ar.checkedAdd a b = some c → 0 ≤ a.toRat → 0 ≤ b.toRat → 0 ≤ c.toRat
  sub_nonneg_iff : ∀ {a b c}, ar.checkedSub a b = some c → (0 ≤ c.toRat ↔ b.toRat ≤ a.toRat)

/-- Rounding makes no sum of a positive amount and no positive difference vanish. -/
structure Arith.KeepsPositive (ar : Arith) : Prop where
  add : ∀ {a b c}, ar.checkedAdd a b = some c → 0 ≤ a.toRat → 0 < b.toRat → 0 < c.toRat
  sub : ∀ {a b c}, ar.checkedSub a b = some c → b.toRat < a.toRat → 0 < c.toRat

theorem Arith.Exact.keepsPositive {ar : Arith} (h : ar.Exact) : ar.KeepsPositive where
  add hadd ha hb := by
    rw [h.add hadd]
    exact add_pos_of_nonneg_of_pos ha hb
  sub hsub hlt := by
    rw [h.sub hsub]
    exact sub_pos.mpr hlt

theorem Arith.Exact.signCorrect {ar : Arith} (h : ar.Exact) : ar.SignCorrect where
  add_nonneg hadd ha hb := by
    rw [h.add hadd]
    exact add_nonneg ha hb
  sub_nonneg_iff hsub := by rw [h.sub hsub, sub_nonneg]

namespace Decimal

/-- The decimal with the given mantissa and scale, if there is one. -/
def ofMantissa (mantissa : Int) (scale : Nat) : Option Decimal :=
  if h : mantissa.natAbs < 2 ^ 96 ∧ scale < 29 then
    some ⟨mantissa < 0, ⟨mantissa.natAbs, h.1⟩, ⟨scale, h.2⟩⟩
  else none

theorem toRat_ofMantissa {mantissa : Int} {scale : Nat} {d : Decimal}
    (h : ofMantissa mantissa scale = some d) : d.toRat = mantissa / 10 ^ scale := by
  unfold ofMantissa at h
  split at h
  · obtain rfl := Option.some.inj h
    have hmantissa : (if mantissa < 0 then -(mantissa.natAbs : Int) else mantissa.natAbs) =
        mantissa := by
      split <;> omega
    simp only [toRat, Decimal.mantissa, decide_eq_true_eq]
    exact_mod_cast congrArg (fun m : Int => (m : ℚ) / 10 ^ scale) hmantissa
  · cases h

/-- The mantissa of a number at a greater scale. -/
def mantissaAt (d : Decimal) (scale : Nat) : Int := d.mantissa * 10 ^ (scale - d.scale.val)

theorem mantissaAt_div (d : Decimal) {scale : Nat} (h : d.scale.val ≤ scale) :
    (d.mantissaAt scale : ℚ) / 10 ^ scale = d.toRat := by
  have hsplit : (10 : ℚ) ^ scale = 10 ^ (scale - d.scale.val) * 10 ^ d.scale.val := by
    rw [← pow_add, Nat.sub_add_cancel h]
  have hpos : (10 : ℚ) ^ (scale - d.scale.val) ≠ 0 := by positivity
  rw [mantissaAt, toRat, hsplit]
  push_cast
  rw [mul_comm, mul_div_mul_left _ _ hpos]

end Decimal

/-- Arithmetic at the greater of the two scales, which fails where the result needs more than 96
bits. -/
def exactArith : Arith where
  tryFromI128WithScale := Decimal.ofMantissa
  checkedAdd a b :=
    let scale := max a.scale.val b.scale.val
    Decimal.ofMantissa (a.mantissaAt scale + b.mantissaAt scale) scale
  checkedSub a b :=
    let scale := max a.scale.val b.scale.val
    Decimal.ofMantissa (a.mantissaAt scale - b.mantissaAt scale) scale

theorem exactArith_lawful : exactArith.Lawful where
  tryFrom_eq n scale := by
    have hneg : ¬(n : Int) < 0 := by omega
    simp only [exactArith, Decimal.ofMantissa, Int.natAbs_natCast, hneg, decide_false]

theorem exactArith_exact : exactArith.Exact where
  add h := by
    rw [Decimal.toRat_ofMantissa h, Int.cast_add, add_div,
      Decimal.mantissaAt_div _ (le_max_left ..), Decimal.mantissaAt_div _ (le_max_right ..)]
  sub h := by
    rw [Decimal.toRat_ofMantissa h, Int.cast_sub, sub_div,
      Decimal.mantissaAt_div _ (le_max_left ..), Decimal.mantissaAt_div _ (le_max_right ..)]

end Kolme
