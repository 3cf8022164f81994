import SevenDB.Eval.ByteArray
import Mathlib.Algebra.Order.Ring.Int

/-!
# Incrementing a bit field

The sum of a field and an increment, and the bounds of the field, are computed in 64 bits. Saturation is exact as long
as the sum fits. A failure is detected for fields of up to 63 bits, and leaves the array as it was when that need not
grow. Wrapping is exact for signed fields of up to 62 bits, and for unsigned ones when the sum is not negative or ends
in zeros. A signed field of 63 bits has as many values as the smallest word is negative, and one of 64 bits has zero
values in 64 bits, by which wrapping divides.
-/

namespace SevenDB.Eval

/-- What to do with a sum that does not fit into its field. -/
inductive Overflow
  | wrap
  | sat
  | fail
  deriving DecidableEq, Repr

namespace FieldType

variable (t : FieldType)

/-- The largest value, as the code computes it. -/
def maxVal : BitVec 64 := if t.signed then (1#64 <<< (t.width - 1)) - 1 else (1#64 <<< t.width) - 1

/-- The smallest value, as the code computes it. -/
def minVal : BitVec 64 := if t.signed then (-1#64) <<< (t.width - 1) else 0

/-- The smallest value of a field. There are `2 ^ t.width` values from it on. -/
def lowest : ℤ := if t.signed then -2 ^ (t.width - 1) else 0

/-- The value that is stored for a sum. Nothing is returned when the code divides by zero. -/
def settle (newValue : BitVec 64) : Overflow → Option (Except String (BitVec 64))
  | .wrap =>
    if t.signed then
      let rangeSize := t.maxVal - t.minVal + 1
      if rangeSize = 0 then none
      else some (.ok (((newValue - t.minVal).srem rangeSize + rangeSize).srem rangeSize + t.minVal))
    else if t.maxVal + 1 = 0 then none
    else some (.ok (newValue.srem (t.maxVal + 1)))
  | .sat =>
    some (.ok (if t.maxVal.slt newValue then t.maxVal else if newValue.slt t.minVal then t.minVal else newValue))
  | .fail =>
    some (if t.maxVal.slt newValue || newValue.slt t.minVal then .error "overflow detected" else .ok newValue)

end FieldType

namespace ByteArray

variable (data : ByteArray) (offset : ℕ) (t : FieldType) (increment : BitVec 64) (overflow : Overflow)

/-- The sum as the code computes it, in 64 bits. -/
def newValue : BitVec 64 := (data.growFor offset t.width).getBits offset t.width t.signed + increment

def incrByBits : Option (Except String (BitVec 64) × ByteArray) :=
  (t.settle (data.newValue offset t increment) overflow).map fun
    | .error e => (.error e, data.growFor offset t.width)
    | .ok value => (.ok value, (data.growFor offset t.width).setBits offset t.width value)

/-- The sum of the field and the increment. -/
def exactSum : ℤ := ((data.growFor offset t.width).getBits offset t.width t.signed).toInt + increment.toInt

/-- The sum is wrapped or clamped exactly; or it is exact, or an error leaves the array as it was. -/
def IncrExact : Prop :=
  let sum := data.exactSum offset t increment
  match overflow with
  | .wrap => ∃ r after, data.incrByBits offset t increment overflow = some (.ok r, after) ∧
      r.toInt = t.lowest + (sum - t.lowest) % 2 ^ t.width
  | .sat => ∃ r after, data.incrByBits offset t increment overflow = some (.ok r, after) ∧
      r.toInt = max t.lowest (min sum (t.lowest + 2 ^ t.width - 1))
  | .fail => (∃ r after, data.incrByBits offset t increment overflow = some (.ok r, after) ∧ r.toInt = sum) ∨
      ∃ e, data.incrByBits offset t increment overflow = some (.error e, data)

/-- The arithmetic in 64 bits is exact for this field and increment, and a failure needs no growth. -/
def IncrSafe : Prop :=
  let sum := data.exactSum offset t increment
  match overflow with
  | .wrap =>
    if t.signed then t.width ≤ 62 ∨ t.width = 63 ∧ (sum ≤ t.lowest ∨ t.lowest + 2 ^ 63 ≤ sum)
    else (0 ≤ sum ∧ sum < 2 ^ 63) ∨ 2 ^ t.width ∣ sum
  | .sat => -2 ^ 63 ≤ sum ∧ sum < 2 ^ 63
  | .fail => (t.lowest ≤ sum ∧ sum < t.lowest + 2 ^ t.width) ∨ (t.width ≤ 63 ∧ offset + t.width ≤ 8 * data.length)

end ByteArray

section Arithmetic

theorem toInt_add_of_fits {x y : BitVec 64} (hlow : -2 ^ 63 ≤ x.toInt + y.toInt) (hhigh : x.toInt + y.toInt < 2 ^ 63) :
    (x + y).toInt = x.toInt + y.toInt := by
  rw [BitVec.toInt_add]
  exact Int.bmod_eq_of_le (by simpa using hlow) (by simpa using hhigh)

theorem toInt_sub_of_fits {x y : BitVec 64} (hlow : -2 ^ 63 ≤ x.toInt - y.toInt) (hhigh : x.toInt - y.toInt < 2 ^ 63) :
    (x - y).toInt = x.toInt - y.toInt := by
  rw [BitVec.toInt_sub]
  exact Int.bmod_eq_of_le (by simpa using hlow) (by simpa using hhigh)

/-- Reduction to 64 bits does not change the remainder by a power of two. -/
theorem bmod_emod_two_pow (x : ℤ) {w : ℕ} (hw : w ≤ 64) : x.bmod (2 ^ 64) % 2 ^ w = x % 2 ^ w := by
  have hdvd : (2 : ℤ) ^ w ∣ ((2 ^ 64 : ℕ) : ℤ) := pow_dvd_pow 2 hw
  rw [← Int.emod_emod_of_dvd _ hdvd, Int.bmod_emod, Int.emod_emod_of_dvd _ hdvd]

theorem ofInt_pow (k : ℕ) : BitVec.ofInt 64 (2 ^ k) = 1#64 <<< k := by
  rw [← ByteArray.ofInt_two_pow, Nat.cast_pow, Nat.cast_ofNat]

variable (t : FieldType)

theorem FieldType.two_pow_pos : (0 : ℤ) < 2 ^ t.width := pow_pos (by decide) _

theorem FieldType.two_pow_width : (2 : ℤ) ^ t.width = 2 * 2 ^ (t.width - 1) := by
  rw [← pow_succ', Nat.sub_add_cancel t.admitted.1]

theorem FieldType.fits : -2 ^ 63 ≤ t.lowest ∧ t.lowest + 2 ^ t.width - 1 < 2 ^ 63 := by
  obtain ⟨hpos, hle⟩ := t.admitted
  unfold lowest
  split at hle <;> simp only [*, if_true, if_false, Bool.false_eq_true]
  · have htop : (2 : ℤ) ^ (t.width - 1) ≤ 2 ^ 63 := pow_le_pow_right₀ (by decide) (by omega)
    have hdouble := t.two_pow_width
    omega
  · have htop : (2 : ℤ) ^ t.width ≤ 2 ^ 63 := pow_le_pow_right₀ (by decide) hle
    omega

/-- Zero is a value of a field, and not the only one. -/
theorem FieldType.zero_mem : t.lowest ≤ 0 ∧ 0 < t.lowest + 2 ^ t.width ∧ 1 < (2 : ℤ) ^ t.width := by
  have hpos : (0 : ℤ) < 2 ^ (t.width - 1) := pow_pos (by decide) _
  have hdouble := t.two_pow_width
  unfold lowest
  split <;> omega

theorem FieldType.toInt_minVal : t.minVal.toInt = t.lowest := by
  have hmin : t.minVal = BitVec.ofInt 64 t.lowest := by
    unfold minVal lowest
    split
    · rw [BitVec.ofInt_neg, ofInt_pow, BitVec.shiftLeft_eq_mul_twoPow, BitVec.neg_mul, BitVec.one_mul,
        BitVec.twoPow]
    · rfl
  have hpow := t.two_pow_pos
  rw [hmin, BitVec.toInt_ofInt_eq_self (by decide) t.fits.1 (by have := t.fits.2; omega)]

theorem FieldType.toInt_maxVal : t.maxVal.toInt = t.lowest + 2 ^ t.width - 1 := by
  have hmax : t.maxVal = BitVec.ofInt 64 (t.lowest + 2 ^ t.width - 1) := by
    unfold maxVal lowest
    have hone : BitVec.ofInt 64 1 = 1 := by decide
    rw [Int.sub_eq_add_neg, BitVec.ofInt_add, BitVec.ofInt_neg, hone, ← BitVec.sub_eq_add_neg]
    split
    · have hhalf : -2 ^ (t.width - 1) + 2 ^ t.width = (2 : ℤ) ^ (t.width - 1) := by
        rw [t.two_pow_width]
        omega
      rw [hhalf, ofInt_pow]
    · rw [Int.zero_add, ofInt_pow]
  have hpow := t.two_pow_pos
  rw [hmax, BitVec.toInt_ofInt_eq_self (by decide) (by have := t.fits.1; omega) t.fits.2]

theorem FieldType.settle_wrap_signed (v : BitVec 64) (hsigned : t.signed = true) (hwidth : t.width ≤ 62) :
    ∃ r, t.settle v .wrap = some (.ok r) ∧ r.toInt = t.lowest + (v.toInt - t.lowest) % 2 ^ t.width := by
  have hpos := t.two_pow_pos
  have hsmall : (2 : ℤ) ^ t.width ≤ 2 ^ 62 := pow_le_pow_right₀ (by decide) hwidth
  have hmin := t.toInt_minVal
  have hmax := t.toInt_maxVal
  have hfits := t.fits
  have hone : (1 : BitVec 64).toInt = 1 := by decide
  have hdiff : (t.maxVal - t.minVal).toInt = 2 ^ t.width - 1 := by
    rw [toInt_sub_of_fits] <;> omega
  have hrange : (t.maxVal - t.minVal + 1).toInt = 2 ^ t.width := by
    rw [toInt_add_of_fits] <;> omega
  have hne : t.maxVal - t.minVal + 1 ≠ 0 := fun hzero => by
    rw [hzero] at hrange
    exact hpos.ne hrange
  -- the remainder of the difference, which is negative where the difference is
  have hrem : ((v - t.minVal).srem (t.maxVal - t.minVal + 1)).toInt = (v - t.minVal).toInt.tmod (2 ^ t.width) := by
    rw [BitVec.toInt_srem, hrange]
  have hlt := Int.tmod_lt_of_pos (v - t.minVal).toInt hpos
  have hgt := Int.lt_tmod_of_pos (v - t.minVal).toInt hpos
  have hsum : ((v - t.minVal).srem (t.maxVal - t.minVal + 1) + (t.maxVal - t.minVal + 1)).toInt =
      (v - t.minVal).toInt.tmod (2 ^ t.width) + 2 ^ t.width := by
    rw [toInt_add_of_fits] <;> rw [hrem, hrange] <;> omega
  have hmod : (((v - t.minVal).srem (t.maxVal - t.minVal + 1) + (t.maxVal - t.minVal + 1)).srem
      (t.maxVal - t.minVal + 1)).toInt = (v.toInt - t.lowest) % 2 ^ t.width := by
    rw [BitVec.toInt_srem, hsum, hrange, Int.tmod_eq_emod_of_nonneg (by omega), Int.add_emod_right, Int.tmod_def,
      Int.sub_mul_emod_self_left, BitVec.toInt_sub, bmod_emod_two_pow _ t.width_le, hmin]
  have hnonneg := Int.emod_nonneg (v.toInt - t.lowest) hpos.ne'
  have hbound := Int.emod_lt_of_pos (v.toInt - t.lowest) hpos
  refine ⟨_, by simp only [settle, hsigned, if_true, hne, if_false]; rfl, ?_⟩
  rw [toInt_add_of_fits] <;> rw [hmod, hmin] <;> omega

/-- The remainder by the smallest word. -/
theorem toInt_srem_intMin (x : BitVec 64) :
    (x.srem (BitVec.intMin 64)).toInt = if x.toInt = -2 ^ 63 then 0 else x.toInt := by
  have hlow : -2 ^ 63 ≤ x.toInt := BitVec.le_toInt x
  have hhigh : x.toInt < 2 ^ 63 := BitVec.toInt_lt
  rw [BitVec.toInt_srem, show (BitVec.intMin 64).toInt = -2 ^ 63 by decide, Int.tmod_neg]
  split_ifs with hmin
  · rw [hmin]
    decide
  · rcases lt_or_ge x.toInt 0 with hneg | hnonneg
    · rw [← Int.neg_neg x.toInt, Int.neg_tmod, Int.tmod_eq_of_lt (by omega) (by omega)]
    · exact Int.tmod_eq_of_lt hnonneg hhigh

/-- A signed field of 63 bits is wrapped exactly when the difference to its smallest value is not positive in 64 bits. -/
theorem FieldType.settle_wrap_signed_63 (v : BitVec 64) (hsigned : t.signed = true) (hwidth : t.width = 63) :
    ∃ r, t.settle v .wrap = some (.ok r) ∧
      (r.toInt = t.lowest + (v.toInt - t.lowest) % 2 ^ t.width ↔ (v.toInt - t.lowest).bmod (2 ^ 64) ≤ 0) := by
  have hrange : t.maxVal - t.minVal + 1 = BitVec.intMin 64 := by
    simp only [maxVal, minVal, hsigned, hwidth, if_true]
    decide
  have hlowest : t.lowest = -2 ^ 62 := by simp [lowest, hsigned, hwidth]
  have hmin := t.toInt_minVal
  refine ⟨_, by simp only [settle, hsigned, if_true, hrange]; rfl, ?_⟩
  have hmod := bmod_emod_two_pow (v.toInt - t.lowest) (show 63 ≤ 64 by decide)
  have hdiff : (v - t.minVal).toInt = (v.toInt - t.lowest).bmod (2 ^ 64) := by rw [BitVec.toInt_sub, hmin]
  rw [hwidth, ← hmod, ← hdiff]
  have hlow : -2 ^ 63 ≤ (v - t.minVal).toInt := BitVec.le_toInt _
  have hhigh : (v - t.minVal).toInt < 2 ^ 63 := BitVec.toInt_lt
  simp only [BitVec.toInt_add, toInt_srem_intMin, hmin, hlowest, show (BitVec.intMin 64).toInt = -2 ^ 63 by decide,
    Int.bmod]
  omega

/-- An unsigned field is wrapped exactly when the sum is not negative in 64 bits or ends in zeros. -/
theorem FieldType.settle_wrap_unsigned (v : BitVec 64) (hsigned : t.signed = false) :
    ∃ r, t.settle v .wrap = some (.ok r) ∧
      (r.toInt = v.toInt % 2 ^ t.width ↔ 0 ≤ v.toInt ∨ 2 ^ t.width ∣ v.toInt) := by
  have hpos := t.two_pow_pos
  have hone : (1 : BitVec 64).toInt = 1 := by decide
  have hmax : t.maxVal.toInt = 2 ^ t.width - 1 := by
    rw [t.toInt_maxVal, lowest, hsigned]
    simp
  have hle : t.width ≤ 63 := by simpa [hsigned] using t.admitted.2
  -- with 63 bits the number of values is negative in 64 bits, but the remainder is the same
  have hrange : (t.maxVal + 1).toInt = 2 ^ t.width ∨ (t.maxVal + 1).toInt = -2 ^ t.width := by
    rcases hle.lt_or_eq with hlt | heq
    · have hsmall : (2 : ℤ) ^ t.width ≤ 2 ^ 62 := pow_le_pow_right₀ (by decide) (by omega)
      left
      rw [toInt_add_of_fits] <;> omega
    · right
      rw [BitVec.toInt_add, hmax, heq]
      decide
  have hne : t.maxVal + 1 ≠ 0 := fun hzero => by
    rw [hzero, show (0 : BitVec 64).toInt = 0 by decide] at hrange
    omega
  have hrem : (v.srem (t.maxVal + 1)).toInt = v.toInt.tmod (2 ^ t.width) := by
    rw [BitVec.toInt_srem]
    rcases hrange with heq | heq <;> rw [heq]
    rw [Int.tmod_neg]
  refine ⟨_, by simp only [settle, hsigned, Bool.false_eq_true, hne, if_false]; rfl, ?_⟩
  rw [hrem]
  rcases lt_or_ge v.toInt 0 with hneg | hnonneg
  · -- the remainder of a negative number is not positive, so it is right when it is zero
    have hnonpos : 0 ≤ -v.toInt.tmod (2 ^ t.width) := Int.neg_tmod _ _ ▸ Int.tmod_nonneg _ (by omega)
    have hemod := Int.emod_nonneg v.toInt hpos.ne'
    rw [or_iff_right (by omega)]
    constructor
    · intro heq
      exact Int.dvd_of_emod_eq_zero (by omega)
    · intro hdvd
      rw [Int.tmod_eq_zero_of_dvd hdvd, Int.emod_eq_zero_of_dvd hdvd]
  · exact iff_of_true (Int.tmod_eq_emod_of_nonneg hnonneg) (Or.inl hnonneg)

/-- A value reduced to a field is in its range. -/
theorem FieldType.toInt_reduce_mem (v : BitVec 64) :
    t.lowest ≤ (t.reduce v).toInt ∧ (t.reduce v).toInt < t.lowest + 2 ^ t.width := by
  have hwidth := t.admitted
  unfold reduce lowest
  split <;> simp only [*, if_true, if_false, Bool.false_eq_true] at hwidth ⊢
  · rw [BitVec.toInt_signExtend_of_le t.width_le]
    have hlow := BitVec.le_toInt (v.setWidth t.width)
    have hhigh := BitVec.toInt_lt (x := v.setWidth t.width)
    have hdouble := t.two_pow_width
    omega
  · have hlt : ((v.setWidth t.width).setWidth 64).toNat < 2 ^ t.width := by
      rw [BitVec.toNat_setWidth_of_le t.width_le]
      exact (v.setWidth t.width).isLt
    have hsmall : 2 ^ t.width ≤ 2 ^ 63 := Nat.pow_le_pow_right (by decide) hwidth.2
    rw [BitVec.toInt_eq_toNat_of_lt (by omega)]
    have hcast : ((2 ^ t.width : ℕ) : ℤ) = 2 ^ t.width := by push_cast; rfl
    omega

theorem FieldType.settle_sat (v : BitVec 64) :
    ∃ r, t.settle v .sat = some (.ok r) ∧ r.toInt = max t.lowest (min v.toInt (t.lowest + 2 ^ t.width - 1)) := by
  have hpos := t.two_pow_pos
  have hmin := t.toInt_minVal
  have hmax := t.toInt_maxVal
  refine ⟨_, rfl, ?_⟩
  simp only [BitVec.slt_iff_toInt_lt]
  split_ifs <;> omega

end Arithmetic

namespace ByteArray

variable {data : ByteArray} {offset : ℕ} {t : FieldType} {increment : BitVec 64} {overflow : Overflow}

/-- The sum of a value in the range of its field and a word. -/
theorem exactSum_bounds (data : ByteArray) (offset : ℕ) (t : FieldType) (increment : BitVec 64) :
    t.lowest - 2 ^ 63 ≤ data.exactSum offset t increment ∧
      data.exactSum offset t increment < t.lowest + 2 ^ t.width - 1 + 2 ^ 63 := by
  have hfield : t.lowest ≤ ((data.growFor offset t.width).getBits offset t.width t.signed).toInt ∧
      ((data.growFor offset t.width).getBits offset t.width t.signed).toInt < t.lowest + 2 ^ t.width := by
    rw [getBits_eq_reduce t (le_length_growFor t.width)]
    exact t.toInt_reduce_mem _
  have hlow : -2 ^ 63 ≤ increment.toInt := BitVec.le_toInt increment
  have hhigh : increment.toInt < 2 ^ 63 := BitVec.toInt_lt
  unfold exactSum
  omega

/-- The sum in 64 bits is the sum, or it is off by the number of words. -/
theorem toInt_newValue (data : ByteArray) (offset : ℕ) (t : FieldType) (increment : BitVec 64) :
    (data.newValue offset t increment).toInt =
      if data.exactSum offset t increment < -2 ^ 63 then data.exactSum offset t increment + 2 ^ 64
      else if data.exactSum offset t increment < 2 ^ 63 then data.exactSum offset t increment
      else data.exactSum offset t increment - 2 ^ 64 := by
  have hbounds := data.exactSum_bounds offset t increment
  have hfits := t.fits
  have hvalue : (data.newValue offset t increment).toInt = (data.exactSum offset t increment).bmod (2 ^ 64) :=
    BitVec.toInt_add _ _
  rw [hvalue, Int.bmod]
  split_ifs <;> omega

/-- An increment returns what is settled on, unless that is an error. -/
theorem exists_incrByBits_iff {P : BitVec 64 → Prop} :
    (∃ r after, data.incrByBits offset t increment overflow = some (.ok r, after) ∧ P r) ↔
      ∃ r, t.settle (data.newValue offset t increment) overflow = some (.ok r) ∧ P r := by
  unfold incrByBits
  rcases t.settle (data.newValue offset t increment) overflow with - | e | r <;> simp

theorem growFor_eq_self_iff : data.growFor offset t.width = data ↔ offset + t.width ≤ 8 * data.length := by
  refine ⟨fun heq => ?_, fun hle => if_neg (by omega)⟩
  have hle := @le_length_growFor data offset t.width
  rwa [heq] at hle

theorem incrByBits_error_iff {e : String} :
    data.incrByBits offset t increment overflow = some (.error e, data) ↔
      t.settle (data.newValue offset t increment) overflow = some (.error e) ∧ offset + t.width ≤ 8 * data.length := by
  unfold incrByBits
  rcases t.settle (data.newValue offset t increment) overflow with - | e | r <;> simp [growFor_eq_self_iff]

theorem wrap_exact_iff :
    data.IncrExact offset t increment .wrap ↔ data.IncrSafe offset t increment .wrap := by
  have hbounds := data.exactSum_bounds offset t increment
  have hvalue := data.toInt_newValue offset t increment
  have hmod : (data.newValue offset t increment).toInt % 2 ^ t.width =
      data.exactSum offset t increment % 2 ^ t.width := by
    rw [newValue, BitVec.toInt_add, bmod_emod_two_pow _ t.width_le, exactSum]
  simp only [IncrExact, IncrSafe, exists_incrByBits_iff]
  rw [Int.sub_emod, ← hmod, ← Int.sub_emod]
  generalize data.newValue offset t increment = v at hvalue hmod ⊢
  generalize data.exactSum offset t increment = sum at hbounds hvalue hmod ⊢
  split
  · next hsigned =>
    have hwidth := t.width_le
    rcases Nat.lt_or_ge 62 t.width with hlarge | hsmall
    · rcases Nat.lt_or_ge 63 t.width with hlast | hle
      · -- the number of values is zero in 64 bits
        have hwide : t.width = 64 := by omega
        have hzero : t.maxVal - t.minVal + 1 = 0 := by
          simp only [FieldType.maxVal, FieldType.minVal, hsigned, hwide, if_true]
          decide
        have hnone : t.settle v .wrap = none := by
          simp only [FieldType.settle, hsigned, if_true, hzero]
        simp [hnone, hwide]
      · have hwide : t.width = 63 := by omega
        have hlowest : t.lowest = -2 ^ 62 := by simp [FieldType.lowest, hsigned, hwide]
        obtain ⟨r, hr, hiff⟩ := t.settle_wrap_signed_63 v hsigned hwide
        simp only [hr, Option.some.injEq, Except.ok.injEq, exists_eq_left']
        rw [hiff, or_iff_right (by omega), and_iff_right hwide, hlowest, hvalue, Int.bmod]
        rw [hwide, hlowest] at hbounds
        split_ifs <;> omega
    · obtain ⟨r, hr, hexact⟩ := t.settle_wrap_signed v hsigned hsmall
      exact iff_of_true ⟨r, hr, hexact⟩ (Or.inl hsmall)
  · next hsigned =>
    rw [Bool.not_eq_true] at hsigned
    have hlowest : t.lowest = 0 := by simp [FieldType.lowest, hsigned]
    obtain ⟨r, hr, hiff⟩ := t.settle_wrap_unsigned v hsigned
    simp only [hr, Option.some.injEq, Except.ok.injEq, exists_eq_left', hlowest, Int.zero_add, Int.sub_zero, hiff]
    rw [hlowest] at hbounds
    rw [Int.dvd_iff_emod_eq_zero, hmod, ← Int.dvd_iff_emod_eq_zero, hvalue]
    have hfits := t.fits
    refine or_congr_left ?_
    split_ifs <;> omega

theorem sat_exact_iff :
    data.IncrExact offset t increment .sat ↔ data.IncrSafe offset t increment .sat := by
  have hbounds := data.exactSum_bounds offset t increment
  have hvalue := data.toInt_newValue offset t increment
  have hfits := t.fits
  have hzero := t.zero_mem
  simp only [IncrExact, IncrSafe, exists_incrByBits_iff]
  obtain ⟨r, hr, hexact⟩ := t.settle_sat (data.newValue offset t increment)
  simp only [hr, Option.some.injEq, Except.ok.injEq, exists_eq_left', hexact, hvalue]
  split_ifs <;> omega

theorem fail_exact_iff :
    data.IncrExact offset t increment .fail ↔ data.IncrSafe offset t increment .fail := by
  have hbounds := data.exactSum_bounds offset t increment
  have hvalue := data.toInt_newValue offset t increment
  have hfits := t.fits
  have hsmall : t.width ≤ 63 → (2 : ℤ) ^ t.width ≤ 2 ^ 63 := fun hle => pow_le_pow_right₀ (by decide) hle
  have hlarge : ¬t.width ≤ 63 → (2 : ℤ) ^ t.width = 2 ^ 64 := fun hgt => by
    rw [show t.width = 64 from le_antisymm t.width_le (by omega)]
  simp only [IncrExact, IncrSafe, exists_incrByBits_iff, incrByBits_error_iff]
  generalize data.newValue offset t increment = v at hvalue ⊢
  generalize data.exactSum offset t increment = sum at hbounds hvalue ⊢
  have hover : (t.maxVal.slt v || v.slt t.minVal) = true ↔
      ¬(t.lowest ≤ v.toInt ∧ v.toInt < t.lowest + 2 ^ t.width) := by
    rw [Bool.or_eq_true, BitVec.slt_iff_toInt_lt, BitVec.slt_iff_toInt_lt, t.toInt_minVal, t.toInt_maxVal]
    omega
  by_cases herror : (t.maxVal.slt v || v.slt t.minVal) = true
  · simp only [FieldType.settle, herror, if_true, Option.some.injEq, reduceCtorEq, Except.error.injEq, false_and,
      exists_false, false_or, exists_eq_left']
    rw [hover, hvalue] at herror
    split_ifs at herror <;> omega
  · simp only [FieldType.settle, herror, Bool.false_eq_true, if_false, Option.some.injEq, Except.ok.injEq, reduceCtorEq,
      false_and, exists_eq_left', exists_false, or_false]
    rw [hover, not_not, hvalue] at herror
    rw [hvalue]
    split_ifs at herror ⊢ <;> omega

/-- Increments are exact exactly where the arithmetic in 64 bits is. -/
theorem incr_exact_iff_safe (data : ByteArray) (offset : ℕ) (t : FieldType) (increment : BitVec 64)
    (overflow : Overflow) : data.IncrExact offset t increment overflow ↔ data.IncrSafe offset t increment overflow := by
  cases overflow with
  | wrap => exact wrap_exact_iff
  | sat => exact sat_exact_iff
  | fail => exact fail_exact_iff

/-- Wrapping a signed field of 64 bits divides by zero, an unsigned one goes below zero, a sum over 64 bits is clamped
to the wrong end, and a failure can leave a longer array. -/
theorem incr_inexact :
    incrByBits [] 0 ⟨true, 64, by decide⟩ 1 .wrap = none ∧
      ((incrByBits [] 0 ⟨false, 8, by decide⟩ (-1) .wrap).map fun r => r.1.toOption) = some (some (-1)) ∧
      ((incrByBits [127] 0 ⟨true, 8, by decide⟩ (BitVec.ofInt 64 (2 ^ 63 - 1)) .sat).map fun r => r.1.toOption) =
        some (some (-128)) ∧
      incrByBits [] 0 ⟨false, 8, by decide⟩ (-1) .fail = some (.error "overflow detected", [0]) ∧
      ¬IncrExact [] 0 ⟨true, 64, by decide⟩ 1 .wrap :=
  ⟨by decide, by decide, by decide, by decide,
    fun ⟨_, _, h, _⟩ => Option.some_ne_none _ (h.symm.trans (by decide))⟩

end ByteArray

end SevenDB.Eval
