import Mathlib.Order.Bounds.Basic
import Mathlib.Order.Interval.Set.Basic
import SevenDB.Eval.ByteArray

/-!
# The position of a bit

BITPOS brings the start and the end of its range into the string, in bytes or in bits, and looks at one bit after
the other. Behind a range that no end was given for, a zero is taken to follow the string.
-/

namespace SevenDB.Eval

inductive RangeType
  | byte
  | bit

/-- The number of the unit, byte or bit, that a position is in. -/
def RangeType.unitOf : RangeType → ℕ → ℕ
  | .byte, p => p / 8
  | .bit, p => p

/-- The unit that an index into a string means: a negative one counts from its end. -/
def RangeType.unitAt (rangeType : RangeType) (byteSlice : ByteArray) (index : ℤ) : ℤ :=
  if index < 0 then rangeType.unitOf (byteSlice.length * 8) + index else index

namespace ByteArray

/-- One bit as a byte. A place behind the end makes it panic. -/
def bitAt (byteSlice : ByteArray) (i : ℕ) : Option (BitVec 8) :=
  byteSlice[i / 8]?.map fun byte : BitVec 8 => (byte >>> (7 - i % 8)) &&& 1#8

/-- Look for a bit from a position on, at a number of positions. -/
def search (byteSlice : ByteArray) (bitToFind : BitVec 8) (i : ℕ) : ℕ → Option ℤ
  | 0 => some (-1)
  | n + 1 => (byteSlice.bitAt i).bind fun b =>
    if b = bitToFind then some i else byteSlice.search bitToFind (i + 1) n

/-- Look for a bit between two positions. -/
def getBitPosWithBitRange (byteSlice : ByteArray) (bitToFind : BitVec 8) (start stop : ℤ) : Option ℤ :=
  byteSlice.search bitToFind start.toNat (stop + 1 - start).toNat

/-- Bring a range into a string: negative bounds count from the end, and none is outside. -/
def adjustBitPosSearchRange (start stop length : ℤ) : ℤ × ℤ :=
  (max 0 (if start < 0 then start + length else start), min (length - 1) (if stop < 0 then stop + length else stop))

/-- The position of a bit, or a panic. -/
def getBitPos (byteSlice : ByteArray) (bitToFind : BitVec 8) (start stop : ℤ) (rangeType : RangeType)
    (endRangeProvided : Bool) : Option ℤ :=
  let length : ℤ := match rangeType with
    | .byte => byteSlice.length
    | .bit => byteSlice.length * 8
  let (first, last) := adjustBitPosSearchRange start stop length
  if last < first ∨ length ≤ first then some (-1)
  else
    (match rangeType with
      | .byte => byteSlice.getBitPosWithBitRange bitToFind (first * 8) (last * 8 + 7)
      | .bit => byteSlice.getBitPosWithBitRange bitToFind first last).map fun result =>
      if bitToFind = 0 ∧ result = -1 ∧ endRangeProvided = false then byteSlice.length * 8 else result

/-- The byte of a bit that is looked for. -/
def byteOf (b : Bool) : BitVec 8 := if b then 1 else 0

/-- The positions of the string whose unit is not before the start and not behind the end. -/
def bitRange (byteSlice : ByteArray) (start stop : ℤ) (rangeType : RangeType) : Set ℕ :=
  {p | p < byteSlice.length * 8 ∧ rangeType.unitAt byteSlice start ≤ rangeType.unitOf p ∧
    rangeType.unitOf p ≤ rangeType.unitAt byteSlice stop}

/-- The positions of a range that hold a bit. -/
def holding (byteSlice : ByteArray) (b : Bool) (range : Set ℕ) : Set ℕ := {p ∈ range | byteSlice.bit p = b}

open Classical in
/-- A result is exact: it is the least position of the range that holds the bit. When there is none it is minus one,
or the length in bits if the range is not empty, a zero is looked for and no end was given. -/
def Exact (byteSlice : ByteArray) (b : Bool) (range : Set ℕ) (endRangeProvided : Bool) (result : ℤ) : Prop :=
  (∃ p : ℕ, result = p ∧ IsLeast (byteSlice.holding b range) p) ∨
    (byteSlice.holding b range = ∅ ∧
      result = if range.Nonempty ∧ b = false ∧ endRangeProvided = false then (byteSlice.length * 8 : ℤ) else -1)

variable {byteSlice : ByteArray}

theorem bitAt_eq {i : ℕ} (h : i < byteSlice.length * 8) :
    byteSlice.bitAt i = some (byteOf (byteSlice.bit i)) := by
  have hlt : i / 8 < byteSlice.length := by omega
  have hbit (byte : BitVec 8) (k : ℕ) : (byte >>> k) &&& 1#8 = byteOf (byte.getLsbD k) := by
    ext j hj
    cases hk : byte.getLsbD k <;> cases j <;> simp [byteOf, hk]
  simp [bitAt, bit, hlt, hbit]

theorem byteOf_inj {b c : Bool} : byteOf b = byteOf c ↔ b = c := by
  cases b <;> cases c <;> decide

/-- A search finds the least of the positions that it looks at. -/
theorem search_spec (b : Bool) {i n : ℕ} (h : i + n ≤ byteSlice.length * 8) :
    ∃ result : ℤ, byteSlice.search (byteOf b) i n = some result ∧
      ((∃ p : ℕ, result = p ∧ IsLeast (byteSlice.holding b (Set.Ico i (i + n))) p) ∨
        byteSlice.holding b (Set.Ico i (i + n)) = ∅ ∧ result = -1) := by
  induction n generalizing i with
  | zero => exact ⟨-1, rfl, .inr ⟨by simp [holding], rfl⟩⟩
  | succ n ih =>
    rw [search, bitAt_eq (by omega), Option.bind_some]
    by_cases hbit : byteSlice.bit i = b
    · rw [if_pos (byteOf_inj.mpr hbit)]
      exact ⟨i, rfl, .inl ⟨i, rfl, ⟨⟨le_rfl, by omega⟩, hbit⟩, fun p hp => hp.1.1⟩⟩
    · -- The bit is not at the first position, so the rest of the range has it at the same ones.
      have hrest : byteSlice.holding b (Set.Ico i (i + (n + 1))) =
          byteSlice.holding b (Set.Ico (i + 1) (i + 1 + n)) := by
        ext p
        refine and_congr_left fun hp => ?_
        have hne : p ≠ i := fun heq => hbit (heq ▸ hp)
        simp only [Set.mem_Ico]
        omega
      rw [if_neg (mt byteOf_inj.mp hbit), hrest]
      exact ih (by omega)

/-- A search of all positions of a range that is not empty gives an exact position. -/
theorem exact_of_search (b : Bool) (endRangeProvided : Bool) {first last : ℤ} {range : Set ℕ} (hfirst : 0 ≤ first)
    (hle : first ≤ last) (hlast : last < byteSlice.length * 8) (hrange : ∀ p : ℕ, p ∈ range ↔ first ≤ p ∧ p ≤ last) :
    ∃ result : ℤ, ((byteSlice.getBitPosWithBitRange (byteOf b) first last).map fun result =>
        if byteOf b = 0 ∧ result = -1 ∧ endRangeProvided = false then (byteSlice.length * 8 : ℤ) else result) =
          some result ∧
      byteSlice.Exact b range endRangeProvided result := by
  obtain ⟨result, hsearch, hspec⟩ := byteSlice.search_spec b (i := first.toNat) (n := (last + 1 - first).toNat) (by omega)
  have hico : Set.Ico first.toNat (first.toNat + (last + 1 - first).toNat) = range := by
    ext p
    rw [Set.mem_Ico, hrange]
    omega
  have hnonempty : range.Nonempty := ⟨first.toNat, (hrange _).mpr (by omega)⟩
  have hzero : byteOf b = 0#8 ↔ b = false := byteOf_inj (c := false)
  rw [hico] at hspec
  rw [getBitPosWithBitRange, hsearch]
  refine ⟨_, rfl, ?_⟩
  rcases hspec with ⟨p, rfl, hp⟩ | ⟨hnone, rfl⟩
  · exact .inl ⟨p, if_neg fun h => absurd h.2.1 (by omega), hp⟩
  · exact .inr ⟨hnone, by simp [hzero, hnonempty]⟩

/-- For every string, bit, start, end and unit no byte outside the string is read, and the position is exact in the
range that is asked for. -/
theorem getBitPos_exact (byteSlice : ByteArray) (b : Bool) (start stop : ℤ) (rangeType : RangeType)
    (endRangeProvided : Bool) :
    ∃ result, byteSlice.getBitPos (byteOf b) start stop rangeType endRangeProvided = some result ∧
      byteSlice.Exact b (byteSlice.bitRange start stop rangeType) endRangeProvided result := by
  have hempty {range : Set ℕ} (hrange : ∀ p, p ∉ range) : byteSlice.Exact b range endRangeProvided (-1) := by
    obtain rfl := Set.eq_empty_of_forall_notMem hrange
    exact .inr ⟨by simp [holding], by simp⟩
  -- Bytes and bits only differ in what a unit is.
  cases rangeType
  all_goals
    simp only [getBitPos]
    split
    · next hnone =>
      refine ⟨-1, rfl, hempty fun p hp => ?_⟩
      simp only [adjustBitPosSearchRange] at hnone
      simp only [bitRange, RangeType.unitAt, RangeType.unitOf, Set.mem_ofPred_eq] at hp
      omega
    · next hsome =>
      simp only [adjustBitPosSearchRange] at hsome ⊢
      refine exact_of_search b endRangeProvided (by omega) (by omega) (by omega) fun p => ?_
      simp only [bitRange, RangeType.unitAt, RangeType.unitOf, Set.mem_ofPred_eq]
      omega

end ByteArray

end SevenDB.Eval
