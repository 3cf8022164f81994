import Mathlib.Algebra.Order.Field.Power
import Mathlib.Data.Nat.Log
import Mathlib.Data.Rat.Cast.Order
import Mathlib.Tactic.FieldSimp
import Mathlib.Tactic.Linarith
import Mathlib.Tactic.Positivity
import Mathlib.Tactic.Ring

/-!
# Doubles as exact numbers

A finite double is a mantissa below two to the 53 and an exponent, and the mantissa is full unless the
exponent is the least. A ratio of natural numbers is rounded to the nearest double, to the one with the
even mantissa when there are two, and has none when it is too large. All computations are on natural
numbers, so they can be evaluated; rational numbers only occur in proofs.
-/

namespace SevenDB.Common

structure Ratio where
  num : ℕ
  den : ℕ
  den_pos : 0 < den

namespace Ratio

def value (r : Ratio) : ℚ := r.num / r.den

/-- Divide by a power of two. -/
def scale (r : Ratio) (e : ℤ) : Ratio where
  num := r.num * 2 ^ (-e).toNat
  den := r.den * 2 ^ e.toNat
  den_pos := Nat.mul_pos r.den_pos (Nat.two_pow_pos _)

/-- The nearest natural number, the even one of two. -/
def roundHalfEven (r : Ratio) : ℕ :=
  if 2 * (r.num % r.den) < r.den then r.num / r.den
  else if r.den < 2 * (r.num % r.den) then r.num / r.den + 1
  else r.num / r.den + r.num / r.den % 2

/-- The exponent of the greatest power of two that is not above a positive ratio. -/
def floorLog (r : Ratio) : ℤ :=
  let l : ℤ := Nat.log2 r.num - Nat.log2 r.den
  if (r.scale l).num < (r.scale l).den then l - 1 else l

variable (r : Ratio)

theorem value_scale (e : ℤ) : (r.scale e).value = r.value / 2 ^ e := by
  have hden : (r.den : ℚ) ≠ 0 := Nat.cast_ne_zero.mpr r.den_pos.ne'
  have hpow : (2 : ℚ) ^ e = 2 ^ e.toNat / 2 ^ (-e).toNat := by
    rw [← zpow_natCast, ← zpow_natCast, ← zpow_sub₀ (by norm_num)]
    congr 1
    omega
  rw [value, value, hpow, scale]
  push_cast
  field_simp

theorem value_lt_iff (bound : ℕ) : r.value < bound ↔ r.num < bound * r.den := by
  rw [value, div_lt_iff₀ (by exact_mod_cast r.den_pos)]
  exact_mod_cast Iff.rfl

theorem roundHalfEven_le {bound : ℕ} (h : r.value < bound) : r.roundHalfEven ≤ bound := by
  have hquotient : r.num / r.den < bound := by
    rw [Nat.div_lt_iff_lt_mul r.den_pos]
    exact (r.value_lt_iff bound).mp h
  unfold roundHalfEven
  split
  · omega
  · split <;> omega

/-- A rounded ratio is at least the bound that the ratio is at least. -/
theorem le_roundHalfEven {bound : ℕ} (h : (bound : ℚ) ≤ r.value) : bound ≤ r.roundHalfEven := by
  have hquotient : bound ≤ r.num / r.den := by
    rw [Nat.le_div_iff_mul_le r.den_pos]
    exact Nat.not_lt.mp fun hlt => not_lt.mpr h ((r.value_lt_iff bound).mpr hlt)
  unfold roundHalfEven
  split
  · exact hquotient
  · split <;> omega

/-- The difference of the logarithms is the exponent up to one. -/
theorem value_bounds_log2 (hnum : 0 < r.num) :
    (2 : ℚ) ^ ((Nat.log2 r.num : ℤ) - Nat.log2 r.den - 1) ≤ r.value ∧
      r.value < 2 ^ ((Nat.log2 r.num : ℤ) - Nat.log2 r.den + 1) := by
  have hden : (0 : ℚ) < r.den := by exact_mod_cast r.den_pos
  have hnumLow : (2 : ℚ) ^ Nat.log2 r.num ≤ r.num := by
    exact_mod_cast Nat.log2_self_le hnum.ne'
  have hnumHigh : (r.num : ℚ) < 2 ^ (Nat.log2 r.num + 1) := by
    exact_mod_cast Nat.lt_log2_self
  have hdenLow : (2 : ℚ) ^ Nat.log2 r.den ≤ r.den := by
    exact_mod_cast Nat.log2_self_le r.den_pos.ne'
  have hdenHigh : (r.den : ℚ) < 2 ^ (Nat.log2 r.den + 1) := by
    exact_mod_cast Nat.lt_log2_self
  constructor
  · have hpow : (2 : ℚ) ^ ((Nat.log2 r.num : ℤ) - Nat.log2 r.den - 1) =
        2 ^ Nat.log2 r.num / 2 ^ (Nat.log2 r.den + 1) := by
      rw [sub_sub, zpow_sub₀ (by norm_num)]
      norm_cast
    rw [hpow, value]
    exact div_le_div₀ (by positivity) hnumLow hden hdenHigh.le
  · have hpow : (2 : ℚ) ^ ((Nat.log2 r.num : ℤ) - Nat.log2 r.den + 1) =
        2 ^ (Nat.log2 r.num + 1) / 2 ^ Nat.log2 r.den := by
      rw [sub_add_eq_add_sub, zpow_sub₀ (by norm_num)]
      norm_cast
    rw [hpow, value]
    calc
      (r.num : ℚ) / r.den < 2 ^ (Nat.log2 r.num + 1) / r.den := by gcongr
      _ ≤ 2 ^ (Nat.log2 r.num + 1) / 2 ^ Nat.log2 r.den := by gcongr

theorem floorLog_spec (hnum : 0 < r.num) : (2 : ℚ) ^ r.floorLog ≤ r.value ∧ r.value < 2 ^ (r.floorLog + 1) := by
  obtain ⟨hlow, hhigh⟩ := r.value_bounds_log2 hnum
  unfold floorLog
  generalize (Nat.log2 r.num : ℤ) - Nat.log2 r.den = l at hlow hhigh
  have htest := (r.scale l).value_lt_iff 1
  rw [Nat.one_mul, Nat.cast_one, value_scale, div_lt_one (by positivity)] at htest
  dsimp only
  by_cases hless : (r.scale l).num < (r.scale l).den
  · rw [if_pos hless, sub_add_cancel]
    exact ⟨hlow, htest.mpr hless⟩
  · rw [if_neg hless]
    exact ⟨not_lt.mp fun hlt => hless (htest.mp hlt), hhigh⟩

end Ratio

/-- The size of a finite double. -/
structure Magnitude where
  mantissa : ℕ
  exponent : ℤ
  mantissa_lt : mantissa < 2 ^ 53
  le_exponent : -1074 ≤ exponent
  exponent_le : exponent ≤ 971
  full : 2 ^ 52 ≤ mantissa ∨ exponent = -1074
  deriving DecidableEq

inductive Binary64
  | nan
  | inf (neg : Bool)
  | finite (neg : Bool) (m : Magnitude)
  deriving DecidableEq

namespace Ratio

/-- The exponent of the doubles around a ratio. -/
def unit (r : Ratio) : ℤ := if r.num = 0 then -1074 else max (-1074) (r.floorLog - 52)

theorem le_unit (r : Ratio) : -1074 ≤ r.unit := by
  unfold unit
  split
  · exact le_refl _
  · exact le_max_left _ _

/-- A ratio in units of the doubles around it is below two to the 53. -/
theorem value_scale_unit_lt (r : Ratio) : (r.scale r.unit).value < (2 ^ 53 : ℕ) := by
  rw [value_scale, div_lt_iff₀ (by positivity)]
  by_cases hzero : r.num = 0
  · have hvalue : r.value = 0 := by rw [value, hzero, Nat.cast_zero, zero_div]
    rw [hvalue]
    positivity
  · calc
      r.value < 2 ^ (r.floorLog + 1) := (r.floorLog_spec (Nat.pos_of_ne_zero hzero)).2
      _ ≤ 2 ^ (53 + r.unit) := by
        apply zpow_le_zpow_right₀ (by norm_num)
        rw [unit, if_neg hzero]
        omega
      _ = ((2 ^ 53 : ℕ) : ℚ) * 2 ^ r.unit := by
        rw [zpow_add₀ (by norm_num)]
        norm_cast

/-- Above the smallest doubles a ratio in units of the doubles around it is at least two to the 52. -/
theorem le_value_scale_unit (r : Ratio) (hunit : r.unit ≠ -1074) : ((2 ^ 52 : ℕ) : ℚ) ≤ (r.scale r.unit).value := by
  have hzero : r.num ≠ 0 := fun hzero => hunit (if_pos hzero)
  have heq : r.unit = r.floorLog - 52 := by
    rw [unit, if_neg hzero] at hunit ⊢
    omega
  rw [value_scale, le_div_iff₀ (by positivity)]
  calc
    ((2 ^ 52 : ℕ) : ℚ) * 2 ^ r.unit = 2 ^ (52 + r.unit) := by
      rw [zpow_add₀ (by norm_num)]
      norm_cast
    _ = 2 ^ r.floorLog := by rw [heq, add_sub_cancel]
    _ ≤ r.value := (r.floorLog_spec (Nat.pos_of_ne_zero hzero)).1

/-- The nearest double, unless that is too large. A mantissa that is rounded up to two to the 53 is the next
exponent's least one. -/
def nearest (r : Ratio) : Option Magnitude :=
  if hcarry : (r.scale r.unit).roundHalfEven = 2 ^ 53 then
    if hexponent : r.unit + 1 ≤ 971 then
      some
        { mantissa := 2 ^ 52
          exponent := r.unit + 1
          mantissa_lt := by norm_num
          le_exponent := (le_unit r).trans (by omega)
          exponent_le := hexponent
          full := Or.inl (le_refl _) }
    else none
  else if hexponent : r.unit ≤ 971 then
    some
      { mantissa := (r.scale r.unit).roundHalfEven
        exponent := r.unit
        mantissa_lt := lt_of_le_of_ne (roundHalfEven_le _ (value_scale_unit_lt r)) hcarry
        le_exponent := le_unit r
        exponent_le := hexponent
        full := by
          by_cases hleast : r.unit = -1074
          · exact Or.inr hleast
          · exact Or.inl (le_roundHalfEven _ (le_value_scale_unit r hleast)) }
  else none

end Ratio

section Accuracy

theorem Ratio.abs_roundHalfEven_sub_le (r : Ratio) : |(r.roundHalfEven : ℚ) - r.value| ≤ 1 / 2 := by
  have hden : (0 : ℚ) < r.den := by exact_mod_cast r.den_pos
  -- multiplied by the denominator, both bounds are linear in the quotient and the remainder
  have hbounds : 2 * r.num ≤ (2 * r.roundHalfEven + 1) * r.den ∧
      2 * r.roundHalfEven * r.den ≤ 2 * r.num + r.den := by
    have hnum := Nat.div_add_mod r.num r.den
    have hrest := Nat.mod_lt r.num r.den_pos
    have hnonneg := Nat.zero_le (r.num % r.den)
    unfold roundHalfEven
    split
    · constructor <;> linarith
    · split
      · constructor <;> linarith
      · rcases Nat.mod_two_eq_zero_or_one (r.num / r.den) with hparity | hparity
        · rw [hparity]
          constructor <;> linarith
        · rw [hparity]
          constructor <;> linarith
  have hupper : (2 * r.num : ℚ) ≤ (2 * r.roundHalfEven + 1) * r.den := by exact_mod_cast hbounds.1
  have hlower : (2 * r.roundHalfEven * r.den : ℚ) ≤ 2 * r.num + r.den := by exact_mod_cast hbounds.2
  rw [abs_le, neg_le_sub_iff_le_add, sub_le_iff_le_add', Ratio.value, div_le_iff₀ hden, ← sub_le_iff_le_add,
    le_div_iff₀ hden]
  constructor <;> linarith

/-- The only natural number nearer than one half is the rounded one. -/
theorem Ratio.roundHalfEven_eq {r : Ratio} {n : ℕ} (h : |(n : ℚ) - r.value| < 1 / 2) : r.roundHalfEven = n := by
  have hround := r.abs_roundHalfEven_sub_le
  rw [abs_le] at hround
  rw [abs_lt] at h
  have hlow : (r.roundHalfEven : ℚ) < n + 1 := by linarith
  have hhigh : (n : ℚ) < r.roundHalfEven + 1 := by linarith
  have hlow' : r.roundHalfEven < n + 1 := by exact_mod_cast hlow
  have hhigh' : n < r.roundHalfEven + 1 := by exact_mod_cast hhigh
  omega

/-- Between powers of two that are doubles there is a nearest one, and it is off by at most one part in two to
the 53. -/
theorem Ratio.exists_nearest {r : Ratio} {low high : ℤ} (hlow : (2 : ℚ) ^ low ≤ r.value) (hhigh : r.value < 2 ^ high)
    (hleast : -1021 ≤ low) (hmost : high ≤ 1022) :
    ∃ m, r.nearest = some m ∧ |(m.mantissa * 2 ^ m.exponent : ℚ) - r.value| ≤ r.value / 2 ^ 53 := by
  have htwo : (1 : ℚ) < 2 := by norm_num
  have hpow : (0 : ℚ) < 2 ^ r.unit := by positivity
  have hround := (r.scale r.unit).abs_roundHalfEven_sub_le
  have hsmall := r.value_scale_unit_lt
  rw [Ratio.value_scale] at hround hsmall
  have hmin : low < 53 + r.unit := by
    rw [div_lt_iff₀ hpow] at hsmall
    rw [← zpow_lt_zpow_iff_right₀ htwo, zpow_add₀ two_ne_zero]
    exact lt_of_le_of_lt hlow (by exact_mod_cast hsmall)
  have hlarge := r.le_value_scale_unit (by omega)
  rw [Ratio.value_scale, le_div_iff₀ hpow] at hlarge
  have hmax : 52 + r.unit < high := by
    rw [← zpow_lt_zpow_iff_right₀ htwo, zpow_add₀ two_ne_zero]
    exact lt_of_le_of_lt (by exact_mod_cast hlarge) hhigh
  obtain ⟨m, hm, hvalue⟩ : ∃ m, r.nearest = some m ∧
      (m.mantissa * 2 ^ m.exponent : ℚ) = (r.scale r.unit).roundHalfEven * 2 ^ r.unit := by
    by_cases hcarry : (r.scale r.unit).roundHalfEven = 2 ^ 53
    · refine ⟨_, (dif_pos hcarry).trans (dif_pos (by omega)), ?_⟩
      rw [hcarry, zpow_add₀ two_ne_zero]
      norm_num
      ring
    · exact ⟨_, (dif_neg hcarry).trans (dif_pos (by omega)), rfl⟩
  have hscaled : (m.mantissa * 2 ^ m.exponent : ℚ) - r.value =
      ((r.scale r.unit).roundHalfEven - r.value / 2 ^ r.unit) * 2 ^ r.unit := by
    rw [hvalue, sub_mul, div_mul_cancel₀ _ hpow.ne']
  refine ⟨m, hm, ?_⟩
  rw [hscaled, abs_mul, abs_of_pos hpow]
  calc
    |((r.scale r.unit).roundHalfEven : ℚ) - r.value / 2 ^ r.unit| * 2 ^ r.unit ≤ 1 / 2 * 2 ^ r.unit := by gcongr
    _ ≤ r.value / 2 ^ 53 := by
      rw [le_div_iff₀ (by positivity)]
      push_cast at hlarge
      linarith

end Accuracy

end SevenDB.Common
