import Mathlib.Data.Int.Notation
import Mathlib.Data.UInt

/-!
# Exact results in words of 64 bits

Words are added and subtracted as the numbers that they stand for, up to the range of words. So
the result of a chain of such operations stands for the exact number as soon as that number is in the range,
whatever is out of the range on the way, and never otherwise.
-/

namespace SevenDB.Common

/-- A number is in the range of signed words of 64 bits. -/
def InRange (n : ℤ) : Prop := -2 ^ 63 ≤ n ∧ n < 2 ^ 63

instance (n : ℤ) : Decidable (InRange n) := inferInstanceAs (Decidable (_ ∧ _))

theorem inRange_toInt (w : Int64) : InRange w.toInt := ⟨w.le_toInt, w.toInt_lt⟩

/-- The word of a number stands for it exactly when it is in the range. -/
theorem toInt_ofInt_iff (n : ℤ) : (Int64.ofInt n).toInt = n ↔ InRange n := by
  constructor
  · intro heq
    rw [← heq]
    exact inRange_toInt _
  · intro hrange
    exact Int64.toInt_ofInt_of_le hrange.1 hrange.2

/-- A sum of words stands for the sum exactly when that is in the range. -/
theorem toInt_add_iff (a b : Int64) : (a + b).toInt = a.toInt + b.toInt ↔ InRange (a.toInt + b.toInt) := by
  rw [← toInt_ofInt_iff, Int64.ofInt_add, Int64.ofInt_toInt, Int64.ofInt_toInt]

/-- A difference of words is exact when adding the second word to it again stays in the range. -/
theorem toInt_sub_of_inRange {a b : Int64} (h : InRange ((a - b).toInt + b.toInt)) :
    (a - b).toInt = a.toInt - b.toInt := by
  have hsum := (toInt_add_iff (a - b) b).mpr h
  rw [Int64.sub_add_cancel] at hsum
  omega

end SevenDB.Common
