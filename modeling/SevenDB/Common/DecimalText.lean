import Mathlib.Data.UInt

/-!
# Decimal text of machine words

Formatting and parsing of 64-bit words in base ten, with the error behaviour of a parser
that also returns a value when it fails: zero on a malformed text, the largest word on a
text whose value does not fit. The range check is made digit by digit, so it can fire
before a later malformed character is seen.
-/

namespace SevenDB.Common

inductive NumError
  | invalidText
  | outOfRange
  deriving DecidableEq, Repr

def formatUint (word : UInt64) : String := toString word.toNat

/-- Read the remaining digits after the value read so far. -/
def parseDigits (value : ℕ) : List Char → ℕ × Option NumError
  | [] => (value, none)
  | c :: rest =>
    if c.isDigit then
      if 10 * value + (c.toNat - '0'.toNat) < 2 ^ 64 then
        parseDigits (10 * value + (c.toNat - '0'.toNat)) rest
      else (2 ^ 64 - 1, some .outOfRange)
    else (0, some .invalidText)

/-- Read a decimal word, returning the value that accompanies an error as well. -/
def parseUint (text : String) : UInt64 × Option NumError :=
  if text = "" then (0, some .invalidText)
  else
    let result := parseDigits 0 text.toList
    (UInt64.ofNat result.1, result.2)

theorem le_ofDigitChars (digits : List Char) (value : ℕ) :
    value ≤ Nat.ofDigitChars 10 digits value := by
  rw [Nat.ofDigitChars_eq_ofDigitChars_zero]
  have hpow : 0 < 10 ^ digits.length := Nat.pow_pos (by decide)
  calc
    value ≤ 10 ^ digits.length * value := Nat.le_mul_of_pos_left value hpow
    _ ≤ _ := Nat.le_add_right _ _

theorem parseDigits_of_fits (digits : List Char) (value : ℕ)
    (hdigits : ∀ c ∈ digits, c.isDigit) (hfits : Nat.ofDigitChars 10 digits value < 2 ^ 64) :
    parseDigits value digits = (Nat.ofDigitChars 10 digits value, none) := by
  induction digits generalizing value with
  | nil => simp [parseDigits]
  | cons c rest ih =>
    rw [Nat.ofDigitChars_cons] at hfits ⊢
    have hnext := lt_of_le_of_lt (le_ofDigitChars rest _) hfits
    rw [parseDigits, if_pos (hdigits c List.mem_cons_self), if_pos hnext]
    exact ih _ (fun d hd => hdigits d (List.mem_cons_of_mem c hd)) hfits

@[simp] theorem parseUint_formatUint (word : UInt64) : parseUint (formatUint word) = (word, none) := by
  have hlist : (formatUint word).toList = Nat.toDigits 10 word.toNat := Nat.toList_repr
  have hne : formatUint word ≠ "" := Nat.repr_ne_empty
  have hread : parseDigits 0 (Nat.toDigits 10 word.toNat) = (word.toNat, none) := by
    rw [parseDigits_of_fits _ _ (fun c hc => Nat.isDigit_of_mem_toDigits (by decide) (by decide) hc)]
    · rw [Nat.ofDigitChars_ten_toDigits]
    · rw [Nat.ofDigitChars_ten_toDigits]
      exact word.toNat_lt
  rw [parseUint, if_neg hne, hlist, hread]
  simp

end SevenDB.Common
