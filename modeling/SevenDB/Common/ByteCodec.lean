import Mathlib.Data.List.Basic

/-!
# Records as bytes

A codec puts records into bytes and reads them back. A simple way to put a number into bytes is to
tally it: as many ones as the number says, and a zero.
-/

namespace SevenDB.Common

/-- Records as bytes. -/
structure ByteCodec (R : Type*) where
  encode : R → List UInt8
  decode : List UInt8 → Option R
  decode_encode : ∀ record, decode (encode record) = some record

/-- A number as ones that a zero ends. -/
def putTally (n : ℕ) : List UInt8 := List.replicate n 1 ++ [0]

/-- Take a tallied number off the front. -/
def takeTally : List UInt8 → Option (ℕ × List UInt8)
  | [] => none
  | byte :: rest =>
    if byte = 0 then some (0, rest) else (takeTally rest).map fun taken => (taken.1 + 1, taken.2)

@[simp] theorem takeTally_putTally (n : ℕ) (rest : List UInt8) : takeTally (putTally n ++ rest) = some (n, rest) := by
  rw [putTally, List.append_assoc, List.singleton_append]
  induction n with
  | zero => rfl
  | succ n ih =>
    rw [List.replicate_succ, List.cons_append, takeTally, if_neg (by decide), ih]
    rfl

/-- Numbers one after another, with their count in front. -/
def putTallies (numbers : List ℕ) : List UInt8 := putTally numbers.length ++ numbers.flatMap putTally

/-- Take a given count of tallied numbers off the front. -/
def takeCount : ℕ → List UInt8 → Option (List ℕ × List UInt8)
  | 0, bytes => some ([], bytes)
  | count + 1, bytes =>
    (takeTally bytes).bind fun first =>
      (takeCount count first.2).map fun others => (first.1 :: others.1, others.2)

/-- Take numbers with their count in front. -/
def takeTallies (bytes : List UInt8) : Option (List ℕ × List UInt8) :=
  (takeTally bytes).bind fun count => takeCount count.1 count.2

@[simp] theorem takeTallies_putTallies (numbers : List ℕ) (rest : List UInt8) :
    takeTallies (putTallies numbers ++ rest) = some (numbers, rest) := by
  have hcount : takeCount numbers.length (numbers.flatMap putTally ++ rest) = some (numbers, rest) := by
    induction numbers with
    | nil => rfl
    | cons n others ih =>
      rw [List.length_cons, List.flatMap_cons, List.append_assoc, takeCount, takeTally_putTally,
        Option.bind_some, ih]
      rfl
  rw [takeTallies, putTallies, List.append_assoc, takeTally_putTally, Option.bind_some, hcount]

end SevenDB.Common
