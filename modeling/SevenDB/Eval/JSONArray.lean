import Mathlib.Algebra.Order.Group.Int

/-!
# Trimming and inserting into JSON arrays

Both edits bring an index into the array first. An index above the length becomes that of the last element, but
the length itself is left: it is a place to insert at and none to stop at. So a trim that is to stop at the length
takes one cell more than there are elements.
-/

namespace SevenDB.Eval

variable {α : Type}

/-- A slice: the cells of its array from its start on, and how many of them are its elements. -/
structure Slice (α : Type) where
  cells : List α
  length : ℕ
  length_le : length ≤ cells.length

namespace Slice

def elements (arr : Slice α) : List α := arr.cells.take arr.length

/-- The cells between two bounds. Bounds that are in the wrong order or behind the last cell make it panic. -/
def between (arr : Slice α) (low high : ℤ) : Option (List α) :=
  if 0 ≤ low ∧ low ≤ high ∧ high ≤ arr.cells.length then some ((arr.cells.take high.toNat).drop low.toNat) else none

def adjustIndex (idx : ℤ) (arr : Slice α) : ℤ :=
  let idx := if arr.length < idx then (arr.length : ℤ) - 1 else idx
  if idx < 0 then if idx < -arr.length then 0 else arr.length + idx else idx

/-- Trim an array, or panic. -/
def trimElementAndUpdateArray (arr : Slice α) (start stop : ℤ) : Option (List α) :=
  if arr.length = 0 then some []
  else if arr.length ≤ start then some []
  else if adjustIndex stop arr < adjustIndex start arr then some []
  else arr.between (adjustIndex start arr) (adjustIndex stop arr + 1)

/-- Insert elements into an array, fail, or panic. The cells that are overwritten in place are not read again. -/
def insertElementAndUpdateArray (arr : Slice α) (index : ℤ) (elements : List α) :
    Option (Except String (List α)) :=
  if -(arr.length : ℤ) ≤ index ∧ index ≤ arr.length then
    (arr.between 0 (adjustIndex index arr)).bind fun before =>
      (arr.between (adjustIndex index arr) arr.length).map fun after => .ok (before ++ (elements ++ after))
  else some (.error "index out of bounds")

/-- The place that an index stands for: negative ones count from the end, and none is before the first element or
after a last place. -/
def placeOf (length last idx : ℤ) : ℤ := if idx < 0 then max 0 (length + idx) else min idx last

/-- The elements from the place of the start to that of the stop. A start behind the last element is a place
behind it. -/
def trimmed (arr : Slice α) (start stop : ℤ) : List α :=
  (arr.elements.take (placeOf arr.length (arr.length - 1) stop + 1).toNat).drop
    (placeOf arr.length arr.length start).toNat

/-- The array with elements inserted at the place of an index. -/
def inserted (arr : Slice α) (index : ℤ) (elements : List α) : List α :=
  arr.elements.take (placeOf arr.length arr.length index).toNat ++ elements ++
    arr.elements.drop (placeOf arr.length arr.length index).toNat

variable (arr : Slice α)

@[simp] theorem length_elements : arr.elements.length = arr.length := by
  rw [elements, List.length_take, Nat.min_eq_left arr.length_le]

theorem between_eq {low high : ℤ} (hlow : 0 ≤ low) (hle : low ≤ high) (hhigh : high ≤ arr.length) :
    arr.between low high = some ((arr.elements.take high.toNat).drop low.toNat) := by
  have hcells := arr.length_le
  rw [between, if_pos ⟨hlow, hle, by omega⟩, elements, List.take_take, Nat.min_eq_left (by omega)]

theorem adjustIndex_eq {idx : ℤ} (hpos : 0 < arr.length) (hne : idx ≠ arr.length) :
    adjustIndex idx arr = placeOf arr.length (arr.length - 1) idx := by
  simp only [adjustIndex, placeOf]
  split_ifs <;> omega

theorem adjustIndex_length : adjustIndex arr.length arr = arr.length := by
  simp [adjustIndex]

/-- Trimming gives the elements from start to stop exactly when it is not to stop at the length. -/
theorem trim_eq_iff (start stop : ℤ) :
    arr.trimElementAndUpdateArray start stop = some (arr.trimmed start stop) ↔
      ¬(0 < arr.length ∧ start < arr.length ∧ stop = arr.length) := by
  have hlength := arr.length_elements
  rw [trimElementAndUpdateArray, trimmed]
  by_cases hpos : arr.length = 0
  · rw [if_pos hpos, List.length_eq_zero_iff.mp (hlength.trans hpos)]
    simp [hpos]
  rw [if_neg hpos]
  by_cases hstart : (arr.length : ℤ) ≤ start
  · rw [if_pos hstart, List.drop_eq_nil_of_le]
    · simp [hstart]
    · rw [List.length_take, hlength, show placeOf arr.length arr.length start = arr.length by
        rw [placeOf]; omega]
      omega
  have hplace : placeOf arr.length arr.length start = adjustIndex start arr := by
    rw [adjustIndex_eq arr (by omega) (by omega), placeOf, placeOf]
    omega
  have hrange : 0 ≤ adjustIndex start arr ∧ adjustIndex start arr < arr.length := by
    rw [← hplace, placeOf]
    omega
  rw [if_neg hstart, hplace]
  by_cases hstop : stop = arr.length
  · -- One cell too many is taken, or there is no further cell.
    rw [hstop, adjustIndex_length, if_neg (by omega), between]
    refine iff_of_false (fun heq => ?_) (not_not.mpr ⟨by omega, by omega, rfl⟩)
    split at heq
    · have hlengths := congrArg List.length (Option.some.inj heq)
      simp only [List.length_drop, List.length_take, hlength, placeOf] at hlengths
      omega
    · cases heq
  · rw [adjustIndex_eq arr (by omega) hstop]
    refine iff_of_true ?_ fun h => hstop h.2.2
    split
    · rw [List.drop_eq_nil_of_le]
      rw [List.length_take]
      omega
    · exact arr.between_eq hrange.1 (by omega) (by rw [placeOf]; omega)

theorem insert_eq {index : ℤ} (hrange : -(arr.length : ℤ) ≤ index ∧ index ≤ arr.length) (elements : List α) :
    arr.insertElementAndUpdateArray index elements = some (.ok (arr.inserted index elements)) := by
  have hplace : adjustIndex index arr = placeOf arr.length arr.length index := by
    simp only [adjustIndex, placeOf]
    split_ifs <;> omega
  have hbounds : 0 ≤ placeOf arr.length arr.length index ∧ placeOf arr.length arr.length index ≤ arr.length := by
    rw [placeOf]
    omega
  have hall : arr.elements.take (arr.length : ℤ).toNat = arr.elements := List.take_of_length_le (by simp)
  rw [insertElementAndUpdateArray, if_pos hrange, hplace, arr.between_eq le_rfl hbounds.1 hbounds.2,
    arr.between_eq hbounds.1 hbounds.2 le_rfl, hall]
  simp [inserted]

/-- For every array and all integers: trimming gives the elements from start to stop exactly when it is not to stop
at the length of an array in which it starts, and inserting places the elements at every index from minus the
length to the length and fails at every other one. -/
theorem array_edits_iff (start stop index : ℤ) (elements : List α) :
    (arr.trimElementAndUpdateArray start stop = some (arr.trimmed start stop) ↔
      ¬(0 < arr.length ∧ start < arr.length ∧ stop = arr.length)) ∧
    arr.insertElementAndUpdateArray index elements = some
      (if -(arr.length : ℤ) ≤ index ∧ index ≤ arr.length then .ok (arr.inserted index elements)
      else .error "index out of bounds") := by
  refine ⟨arr.trim_eq_iff start stop, ?_⟩
  split
  · next hrange => exact arr.insert_eq hrange elements
  · next hrange => rw [insertElementAndUpdateArray, if_neg hrange]

/-- A trim of two elements that is to stop at 2 panics when there is no further cell, and gives the cell behind the
elements otherwise. -/
theorem trim_at_length :
    trimElementAndUpdateArray ⟨[1, 2], 2, le_rfl⟩ 0 2 = none ∧
      trimElementAndUpdateArray ⟨[1, 2, 3], 2, by decide⟩ 0 2 = some [1, 2, 3] :=
  ⟨rfl, rfl⟩

end Slice

end SevenDB.Eval
