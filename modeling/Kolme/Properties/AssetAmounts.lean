import Kolme.Properties.Conservation

/-!
# Amounts of assets

The conversion of a decimal amount into units multiplies or divides by ten in 128 bits. A
multiplication that overflows is a panic in a build with overflow checks and wraps in others; the
conversion with checks is the one that says whether there was an overflow.
-/

namespace Kolme

namespace AssetConfig

open Except

variable (ar : Arith)

/-- Multiply by ten a number of times, where an overflow is a panic. -/
def timesTen : Nat → U128 → Except Error U128
  | 0, int => .ok int
  | k + 1, int => do
    ensure (int.val * 10 < 2 ^ 128) .panic
    timesTen k (int * 10)

/-- The conversion in a build with overflow checks. -/
def toU128Checked (self : AssetConfig) (amount : Decimal) : Except Error (Decimal × U128) := do
  ensure (0 ≤ amount.mantissa) (.asset (.toU128WithNegative amount))
  let int : U128 := Fin.ofNat _ amount.mantissa.toNat
  let decimals := self.decimals.toNat
  let scale := amount.scale.val
  let int ←
    if decimals < scale then pure ((fun n => n / 10)^[scale - decimals] int)
    else timesTen (decimals - scale) int
  return (← self.toDecimal ar int, int)

/-- No multiplication overflows, and what is returned are the units of the amount, rounded down. -/
structure Converts (config : AssetConfig) (amount : Decimal) : Prop where
  no_panic : config.toU128Checked ar amount ≠ .error .panic
  unwrapped : config.toU128 ar amount = config.toU128Checked ar amount
  units : ∀ d n, config.toU128 ar amount = .ok (d, n) → d.toRat = config.value n
  rest_nonneg : ∀ d n, config.toU128 ar amount = .ok (d, n) → 0 ≤ amount.toRat - d.toRat
  rest_lt : ∀ d n, config.toU128 ar amount = .ok (d, n) →
    amount.toRat - d.toRat < 1 / 10 ^ config.decimals.toNat

variable {ar} {config : AssetConfig} {amount : Decimal}

theorem timesTen_eq (k : Nat) (int : U128) :
    timesTen k int = if int.val * 10 ^ k < 2 ^ 128 then .ok ((fun n => n * 10)^[k] int)
      else .error .panic := by
  induction k generalizing int with
  | zero => rw [if_pos (by simp)]; rfl
  | succ k ih =>
    by_cases hten : int.val * 10 < 2 ^ 128
    · have hval : (int * 10).val = int.val * 10 := by
        rw [Fin.val_mul]
        exact Nat.mod_eq_of_lt hten
      rw [timesTen, ensure_of hten]
      change timesTen k (int * 10) = _
      rw [ih, hval, mul_assoc, ← pow_succ']
      rfl
    · have hle : int.val * 10 ≤ int.val * 10 ^ (k + 1) :=
        Nat.mul_le_mul_left _ (Nat.le_self_pow (Nat.succ_ne_zero k) 10)
      rw [timesTen, ensure_of_not hten, if_neg (by omega)]
      rfl

theorem toDecimal_ne_panic (n : U128) : config.toDecimal ar n ≠ .error .panic := by
  unfold toDecimal
  by_cases hn : n.val < 2 ^ 127
  · rw [ensure_of hn, ok_bind]
    cases ar.tryFromI128WithScale n.val config.decimals.toNat <;> simp
  · rw [ensure_of_not hn, error_bind]
    simp

theorem withUnits_ne_panic (int : U128) :
    (do return (← config.toDecimal ar int, int) : Except Error (Decimal × U128)) ≠
      .error .panic := by
  have hne : config.toDecimal ar int ≠ .error .panic := toDecimal_ne_panic int
  cases hd : config.toDecimal ar int with
  | ok d => simp
  | error e =>
    rw [hd] at hne
    rw [error_bind]
    exact fun h => hne (congrArg _ (error.inj h))

theorem toU128_ne_panic : config.toU128 ar amount ≠ .error .panic := by
  unfold toU128
  by_cases hneg : 0 ≤ amount.mantissa
  · rw [ensure_of hneg, ok_bind]
    exact withUnits_ne_panic _
  · rw [ensure_of_not hneg, error_bind]
    simp

/-- The mantissa, brought to the scale of the asset, is an integer of 128 bits. A mantissa that is
negative or whose scale is not smaller always fits. -/
def Fits (config : AssetConfig) (amount : Decimal) : Prop :=
  amount.mantissa * 10 ^ (config.decimals.toNat - amount.scale.val) < 2 ^ 128

instance : Decidable (config.Fits amount) := inferInstanceAs (Decidable (_ < _))

theorem mantissa_lt (amount : Decimal) : amount.mantissa < 2 ^ 96 := by
  have hlt := amount.int.isLt
  unfold Decimal.mantissa
  split <;> omega

theorem toNat_mantissa (amount : Decimal) :
    (Fin.ofNat (2 ^ 128) amount.mantissa.toNat).val = amount.mantissa.toNat := by
  have hlt := mantissa_lt amount
  exact Nat.mod_eq_of_lt (by omega)

theorem fits_of_neg (h : amount.mantissa < 0) : config.Fits amount := by
  have hpos : (0 : Int) < 10 ^ (config.decimals.toNat - amount.scale.val) := by positivity
  have hprod := Int.mul_neg_of_neg_of_pos h hpos
  unfold Fits
  omega

theorem fits_of_le (h : config.decimals.toNat ≤ amount.scale.val) : config.Fits amount := by
  have hlt := mantissa_lt amount
  rw [Fits, Nat.sub_eq_zero_of_le h]
  omega

theorem fits_iff {m : Nat} (h : amount.mantissa = m) : config.Fits amount ↔
    m * 10 ^ (config.decimals.toNat - amount.scale.val) < 2 ^ 128 := by
  rw [Fits, h]
  exact_mod_cast Iff.rfl

/-- The checks find an overflow exactly when the amount does not fit, and change nothing else. -/
theorem toU128Checked_eq : config.toU128Checked ar amount =
    if config.Fits amount then config.toU128 ar amount else .error .panic := by
  unfold toU128Checked toU128
  by_cases hneg : 0 ≤ amount.mantissa
  · obtain ⟨m, hm⟩ := Int.eq_ofNat_of_zero_le hneg
    simp only [ensure_of hneg, ok_bind]
    by_cases hscale : config.decimals.toNat < amount.scale.val
    · rw [if_pos hscale, if_pos hscale, if_pos (fits_of_le hscale.le)]
      rfl
    · rw [if_neg hscale, if_neg hscale, timesTen_eq, toNat_mantissa, hm, Int.toNat_natCast]
      by_cases hfits : config.Fits amount
      · rw [if_pos hfits, if_pos ((fits_iff hm).mp hfits)]
        rfl
      · rw [if_neg hfits, if_neg (mt (fits_iff hm).mpr hfits)]
        rfl
  · rw [ensure_of_not hneg, error_bind, error_bind, if_pos (fits_of_neg (not_le.mp hneg))]

theorem units_of_toU128 {d : Decimal} {n : U128} (h : config.toU128 ar amount = .ok (d, n))
    (hfits : config.Fits amount) : ∃ m : Nat, amount.mantissa = m ∧
      n.val = if config.decimals.toNat < amount.scale.val then
          m / 10 ^ (amount.scale.val - config.decimals.toNat)
        else m * 10 ^ (config.decimals.toNat - amount.scale.val) := by
  simp only [toU128, bind_eq_ok, ensure_eq_ok, pure_eq_ok, ok.injEq, Prod.mk.injEq] at h
  obtain ⟨-, hneg, -, -, -, rfl⟩ := h
  obtain ⟨m, hm⟩ := Int.eq_ofNat_of_zero_le hneg
  refine ⟨m, hm, ?_⟩
  have hval := toNat_mantissa amount
  split
  · rw [val_div_iterate, hval, hm, Int.toNat_natCast]
  · rw [val_mul_iterate, hval, hm, Int.toNat_natCast]
    exact Nat.mod_eq_of_lt ((fits_iff hm).mp hfits)

/-- What is left of an amount is less than one unit. -/
theorem rest_bounds {m s t n : Nat}
    (hn : n = if t < s then m / 10 ^ (s - t) else m * 10 ^ (t - s)) :
    0 ≤ (m : ℚ) / 10 ^ s - n / 10 ^ t ∧ (m : ℚ) / 10 ^ s - n / 10 ^ t < 1 / 10 ^ t := by
  have hten (j : Nat) : (0 : ℚ) < 10 ^ j := by positivity
  by_cases hlt : t < s
  · rw [if_pos hlt] at hn
    have hsplit : (10 : ℚ) ^ s = 10 ^ t * 10 ^ (s - t) := by
      rw [← pow_add, Nat.add_sub_cancel' hlt.le]
    have hlow : n * 10 ^ (s - t) ≤ m := hn ▸ Nat.div_mul_le_self _ _
    have hhigh : m < (n + 1) * 10 ^ (s - t) := by
      rw [hn, Nat.mul_comm]
      exact Nat.lt_mul_div_succ _ (by positivity)
    have hlow : (n : ℚ) * 10 ^ (s - t) ≤ m := by exact_mod_cast hlow
    have hhigh : (m : ℚ) < (n + 1) * 10 ^ (s - t) := by exact_mod_cast hhigh
    have hrest : (m : ℚ) / 10 ^ s - n / 10 ^ t = (m - n * 10 ^ (s - t)) / 10 ^ s := by
      rw [sub_div, hsplit, mul_div_mul_right _ _ (hten (s - t)).ne']
    rw [hrest]
    refine ⟨div_nonneg (sub_nonneg.mpr hlow) (hten s).le, ?_⟩
    rw [div_lt_div_iff₀ (hten s) (hten t), one_mul, hsplit, mul_comm]
    refine mul_lt_mul_of_pos_left ?_ (hten t)
    rw [sub_lt_iff_lt_add, ← one_add_mul, add_comm]
    exact hhigh
  · rw [if_neg hlt] at hn
    have hsplit : (10 : ℚ) ^ t = 10 ^ s * 10 ^ (t - s) := by
      rw [← pow_add, Nat.add_sub_cancel' (not_lt.mp hlt)]
    have hrest : (m : ℚ) / 10 ^ s - n / 10 ^ t = 0 := by
      rw [hn, hsplit]
      push_cast
      rw [mul_div_mul_right _ _ (hten (t - s)).ne', sub_self]
    rw [hrest]
    exact ⟨le_rfl, by positivity⟩

theorem converts_iff_fits (har : ar.Lawful) : config.Converts ar amount ↔ config.Fits amount := by
  have hchecked : config.toU128Checked ar amount =
      if config.Fits amount then config.toU128 ar amount else .error .panic := toU128Checked_eq
  constructor
  · intro h
    by_contra hfits
    rw [if_neg hfits] at hchecked
    exact h.no_panic hchecked
  · intro hfits
    rw [if_pos hfits] at hchecked
    have hrest (d : Decimal) (n : U128) (h : config.toU128 ar amount = .ok (d, n)) :
        0 ≤ amount.toRat - d.toRat ∧ amount.toRat - d.toRat < 1 / 10 ^ config.decimals.toNat := by
      obtain ⟨m, hm, hn⟩ := units_of_toU128 h hfits
      rw [toU128_value har h, value, Decimal.toRat, hm, Int.cast_natCast]
      exact rest_bounds hn
    exact {
      no_panic := hchecked ▸ toU128_ne_panic
      unwrapped := hchecked.symm
      units := fun d n h => toU128_value har h
      rest_nonneg := fun d n h => (hrest d n h).1
      rest_lt := fun d n h => (hrest d n h).2 }

theorem eq_of_toDecimal (har : ar.Lawful) {n : U128} {d : Decimal}
    (h : config.toDecimal ar n = .ok d) :
    d.mantissa = n.val ∧ d.scale.val = config.decimals.toNat := by
  simp only [toDecimal, bind_eq_ok, ensure_eq_ok, fromOption_eq_ok] at h
  obtain ⟨-, -, h⟩ := h
  rw [har.tryFrom_eq] at h
  split at h
  · obtain rfl := Option.some.inj h
    exact ⟨rfl, rfl⟩
  · cases h

/-- What comes from a number of units is converted back to it. -/
theorem toU128_toDecimal (har : ar.Lawful) {n : U128} {d : Decimal}
    (h : config.toDecimal ar n = .ok d) : config.toU128 ar d = .ok (d, n) := by
  obtain ⟨hmantissa, hscale⟩ := eq_of_toDecimal har h
  unfold toU128
  rw [ensure_of (by omega), ok_bind]
  dsimp only
  rw [hscale, if_neg (Nat.lt_irrefl _), Nat.sub_self, Function.iterate_zero, id_eq, hmantissa,
    Int.toNat_natCast, Fin.ofNat_eq_cast, Fin.cast_val_eq_self, h]
  rfl

/-- The conversion is right exactly when the mantissa, brought to the scale of the asset, has 128
bits. The conversion back never panics, is exact and is undone by the conversion. -/
theorem toU128_converts_iff (har : ar.Lawful) (config : AssetConfig) (amount : Decimal) :
    (config.Converts ar amount ↔
      amount.mantissa * 10 ^ (config.decimals.toNat - amount.scale.val) < 2 ^ 128) ∧
      (∀ n, config.toDecimal ar n ≠ .error .panic) ∧
      (∀ n d, config.toDecimal ar n = .ok d → d.toRat = config.value n) ∧
      ∀ n d, config.toDecimal ar n = .ok d →
        config.Converts ar d ∧ config.toU128 ar d = .ok (d, n) := by
  refine ⟨converts_iff_fits har, toDecimal_ne_panic, fun n d => toDecimal_value har,
    fun n d h => ⟨?_, toU128_toDecimal har h⟩⟩
  obtain ⟨-, hscale⟩ := eq_of_toDecimal har h
  exact (converts_iff_fits har).mpr (fits_of_le hscale.ge)

end AssetConfig

namespace AmountSample

/-- An asset with eighteen decimals, as those of Ethereum have. -/
def config : AssetConfig := ⟨18, 1⟩

/-- The smallest whole amount whose number of units does not fit. -/
def amount : Decimal := ⟨false, 340282366920938463464, 0⟩

end AmountSample

open AmountSample in
theorem toU128_converts_iff_example :
    (config.Converts exactArith amount ↔
      amount.mantissa * 10 ^ (config.decimals.toNat - amount.scale.val) < 2 ^ 128) ∧
      (∀ n, config.toDecimal exactArith n ≠ .error .panic) ∧
      (∀ n d, config.toDecimal exactArith n = .ok d → d.toRat = config.value n) ∧
      ∀ n d, config.toDecimal exactArith n = .ok d →
        config.Converts exactArith d ∧ config.toU128 exactArith d = .ok (d, n) :=
  AssetConfig.toU128_converts_iff exactArith_lawful config amount

open AmountSample in
/-- The multiplication wraps: less than one token is what remains of an amount of more than
`3 * 10 ^ 20`. With overflow checks it is a panic. -/
theorem toU128_overflows :
    config.toU128 exactArith amount =
        .ok (⟨false, 625392568231788544, 18⟩, 625392568231788544) ∧
      config.toU128Checked exactArith amount = .error .panic ∧
      ¬ ∀ (ar : Arith), ar.Lawful → ∀ config amount, AssetConfig.Converts ar config amount := by
  have hpanic : config.toU128Checked exactArith amount = .error .panic := by rfl
  refine ⟨by rfl, hpanic, fun h => ?_⟩
  exact (h exactArith exactArith_lawful config amount).no_panic hpanic

end Kolme
