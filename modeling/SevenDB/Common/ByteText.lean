import SevenDB.Common.WordRange

/-!
# Decimal numbers and words in byte strings

Texts are byte strings here, so that a text need not be valid in any encoding. A signed decimal number of
64 bits is read with an optional sign, and a value outside the range is refused as a malformed text is.
Words are compared after a change to upper case; besides the letters of ASCII only the few characters
matter whose upper case, or whose case folding, is a letter of ASCII.
-/

namespace SevenDB.Common

theorem forall_byte {P : UInt8 → Prop} (h : ∀ n < 256, P (UInt8.ofNat n)) (b : UInt8) : P b := by
  rw [← UInt8.ofNat_toNat (x := b)]
  exact h _ b.toNat_lt

def ascii (text : String) : List UInt8 := text.toList.map fun c => UInt8.ofNat c.toNat

def digitValue (b : UInt8) : Option ℕ := if 48 ≤ b.toNat ∧ b.toNat ≤ 57 then some (b.toNat - 48) else none

/-- Read the remaining digits after the value read so far. -/
def readNat (value : ℕ) : List UInt8 → Option ℕ
  | [] => some value
  | b :: rest =>
    match digitValue b with
    | some digit => readNat (10 * value + digit) rest
    | none => none

/-- Read the digits of a number, of which there is at least one. -/
def readDigits : List UInt8 → Option ℕ
  | [] => none
  | text => readNat 0 text

/-- Read a signed decimal number of 64 bits. -/
def parseInt : List UInt8 → Option Int64
  | 45 :: rest => (readDigits rest).bind fun n => if n ≤ 2 ^ 63 then some (Int64.ofInt (-n)) else none
  | 43 :: rest => (readDigits rest).bind fun n => if n < 2 ^ 63 then some (Int64.ofInt n) else none
  | text => (readDigits text).bind fun n => if n < 2 ^ 63 then some (Int64.ofInt n) else none

def natText (n : ℕ) : List UInt8 := (Nat.toDigits 10 n).map fun c => UInt8.ofNat c.toNat

def intText (n : ℤ) : List UInt8 := if n < 0 then 45 :: natText n.natAbs else natText n.natAbs

/-- A letter of ASCII in upper case. -/
def upperByte (b : UInt8) : UInt8 := if 97 ≤ b.toNat ∧ b.toNat ≤ 122 then b - 32 else b

/-- Upper case as far as the result is in ASCII: the dotless i and the long s become letters of ASCII. -/
def toUpper : List UInt8 → List UInt8
  | 0xC4 :: 0xB1 :: rest => 73 :: toUpper rest
  | 0xC5 :: 0xBF :: rest => 83 :: toUpper rest
  | b :: rest => upperByte b :: toUpper rest
  | [] => []

/-- Case folding as far as the result is in ASCII: the long s and the sign for kelvin become letters of
ASCII. -/
def foldCase : List UInt8 → List UInt8
  | 0xC5 :: 0xBF :: rest => 83 :: foldCase rest
  | 0xE2 :: 0x84 :: 0xAA :: rest => 75 :: foldCase rest
  | b :: rest => upperByte b :: foldCase rest
  | [] => []

/-- A text is a word, which is given in upper case, up to case folding. -/
def equalFold (text : List UInt8) (word : String) : Bool := decide (foldCase text = ascii word)

/-- A word of ASCII without an i that a text is in upper case is also what it is up to case folding. -/
theorem foldCase_of_toUpper {text word : List UInt8} (h : toUpper text = word)
    (hword : ∀ b ∈ word, b.toNat < 128 ∧ b ≠ 73) : foldCase text = word := by
  induction text using foldCase.induct generalizing word with
  | case1 rest ih =>
    rw [toUpper] at h
    subst h
    rw [foldCase, ih rfl fun b hb => hword b (List.mem_cons_of_mem _ hb)]
  | case2 rest ih =>
    -- the sign for kelvin is not changed to upper case, so the word would not be in ASCII
    rw [toUpper] at h
    · subst h
      exact absurd (hword _ List.mem_cons_self).1 (by decide)
    · simp
    · simp
  | case3 b rest hlong hkelvin ih =>
    rw [toUpper.eq_def] at h
    split at h
    · subst h
      exact absurd rfl (hword _ List.mem_cons_self).2
    · next heq =>
      cases heq
      exact (hlong _ rfl rfl).elim
    · next heq =>
      cases heq
      subst h
      rw [foldCase, ih rfl fun b hb => hword b (List.mem_cons_of_mem _ hb)]
      · exact hlong
      · exact hkelvin
    · next heq => cases heq
  | case4 => simpa [toUpper, foldCase] using h

section Digits

theorem digitValue_ofNat {c : Char} (hc : c.isDigit) :
    digitValue (UInt8.ofNat c.toNat) = some (c.toNat - '0'.toNat) := by
  have hrange : 48 ≤ c.toNat ∧ c.toNat ≤ 57 := by
    simpa [Char.isDigit, UInt32.le_iff_toNat_le] using hc
  have hbyte : (UInt8.ofNat c.toNat).toNat = c.toNat := by
    rw [UInt8.toNat_ofNat']
    omega
  rw [digitValue, hbyte, if_pos hrange]
  rfl

theorem readNat_map (value : ℕ) {digits : List Char} (hdigits : ∀ c ∈ digits, c.isDigit) :
    readNat value (digits.map fun c => UInt8.ofNat c.toNat) = some (Nat.ofDigitChars 10 digits value) := by
  induction digits generalizing value with
  | nil => simp [readNat]
  | cons c rest ih =>
    rw [List.map_cons, readNat, digitValue_ofNat (hdigits c List.mem_cons_self), Nat.ofDigitChars_cons]
    exact ih _ fun d hd => hdigits d (List.mem_cons_of_mem c hd)

theorem isSome_digitValue_of_mem_natText {n : ℕ} {b : UInt8} (hb : b ∈ natText n) : (digitValue b).isSome := by
  obtain ⟨c, hc, rfl⟩ := List.mem_map.mp hb
  rw [digitValue_ofNat (Nat.isDigit_of_mem_toDigits (by decide) (by decide) hc)]
  rfl

theorem natText_ne_nil (n : ℕ) : natText n ≠ [] := by
  intro hempty
  have hlength := Nat.length_toDigits_pos (b := 10) (n := n)
  have hzero := congrArg List.length hempty
  simp only [natText, List.length_map, List.length_nil] at hzero
  omega

theorem readNat_natText (n : ℕ) : readNat 0 (natText n) = some n := by
  rw [natText, readNat_map 0 fun c hc => Nat.isDigit_of_mem_toDigits (by decide) (by decide) hc,
    Nat.ofDigitChars_ten_toDigits]

theorem readDigits_of_ne_nil {text : List UInt8} (h : text ≠ []) : readDigits text = readNat 0 text := by
  cases text with
  | nil => exact absurd rfl h
  | cons b rest => rfl

theorem readDigits_natText (n : ℕ) : readDigits (natText n) = some n := by
  rw [readDigits_of_ne_nil (natText_ne_nil n), readNat_natText]

theorem readNat_eq_none {text : List UInt8} {b : UInt8} (hb : b ∈ text) (hdigit : digitValue b = none) (value : ℕ) :
    readNat value text = none := by
  induction text generalizing value with
  | nil => cases hb
  | cons c rest ih =>
    rw [readNat]
    cases hc : digitValue c with
    | none => rfl
    | some digit =>
      rcases List.mem_cons.mp hb with rfl | hrest
      · rw [hdigit] at hc
        cases hc
      · exact ih hrest _

end Digits

theorem parseInt_of_digit {b : UInt8} (rest : List UInt8) (hb : (digitValue b).isSome) :
    parseInt (b :: rest) =
      (readDigits (b :: rest)).bind fun n => if n < 2 ^ 63 then some (Int64.ofInt n) else none := by
  unfold parseInt
  split
  · next heq =>
    cases heq
    cases hb
  · next heq =>
    cases heq
    cases hb
  · rfl

/-- A text with a byte that is neither a digit nor a sign is not read as a number. -/
theorem parseInt_eq_none {text : List UInt8} {b : UInt8} (hb : b ∈ text) (hdigit : digitValue b = none)
    (hminus : b ≠ 45) (hplus : b ≠ 43) : parseInt text = none := by
  have hread (rest : List UInt8) (hmem : b ∈ rest) : readDigits rest = none := by
    rw [readDigits_of_ne_nil (List.ne_nil_of_mem hmem), readNat_eq_none hmem hdigit]
  unfold parseInt
  split
  · next rest => rw [hread rest (List.mem_of_ne_of_mem hminus hb), Option.bind_none]
  · next rest => rw [hread rest (List.mem_of_ne_of_mem hplus hb), Option.bind_none]
  · rw [hread text hb, Option.bind_none]

/-- The text of a number is read back when the number is in the range, and refused otherwise. -/
theorem parseInt_intText_eq (n : ℤ) : parseInt (intText n) = if InRange n then some (Int64.ofInt n) else none := by
  unfold InRange
  by_cases hneg : n < 0
  · have habs : -(n.natAbs : ℤ) = n := by omega
    rw [intText, if_pos hneg]
    change (readDigits (natText n.natAbs)).bind _ = _
    rw [readDigits_natText, Option.bind_some, habs]
    exact if_congr (by omega) rfl rfl
  · have habs : (n.natAbs : ℤ) = n := by omega
    rw [intText, if_neg hneg]
    obtain ⟨b, rest, htext⟩ := List.exists_cons_of_ne_nil (natText_ne_nil n.natAbs)
    have hb : (digitValue b).isSome := isSome_digitValue_of_mem_natText (htext ▸ List.mem_cons_self)
    rw [htext, parseInt_of_digit rest hb, ← htext, readDigits_natText, Option.bind_some, habs]
    exact if_congr (by omega) rfl rfl

@[simp] theorem parseInt_intText (n : Int64) : parseInt (intText n.toInt) = some n := by
  rw [parseInt_intText_eq, if_pos (inRange_toInt n), Int64.ofInt_toInt]

end SevenDB.Common
